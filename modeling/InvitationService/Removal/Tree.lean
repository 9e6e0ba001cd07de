import InvitationService.Lib.Levels
import InvitationService.Lifecycle.Alone
import InvitationService.Lifecycle.Interleaving
import InvitationService.Lifecycle.Removal

open Relation (ReflTransGen TransGen)

namespace InvitationService

open Resumption Query InvitationTable InvitationWrite Levels

/-! ### The plus-ones of an invitation, and theirs -/

namespace InvitationTable

variable {t : InvitationTable} {p i : Nat} {roots : Nat → Bool} {queue rootIds ids : List Nat}

def Child (t : InvitationTable) (p i : Nat) : Prop := t.parent i = some p

theorem child_lt (p i : Nat) (h : t.Child p i) : p < i := by
  obtain ⟨r, hr, hp⟩ := parent_eq_some.1 h
  exact t.parent_lt hr hp

theorem child_lt_next (p i : Nat) (h : t.Child p i) : i < t.next := by
  obtain ⟨r, hr, -⟩ := parent_eq_some.1 h
  exact t.id_lt hr

theorem acyclic (t : InvitationTable) (i : Nat) : ¬ TransGen t.Child i i := fun h =>
  Nat.lt_irrefl i (show id i < id i from rank_lt child_lt h)

theorem under_iff_descends :
    t.under roots i = true ↔ ∃ root, roots root = true ∧ ReflTransGen t.Child root i := by
  constructor
  · intro h
    refine under_induction (P := fun i => ∃ root, roots root = true ∧ ReflTransGen t.Child root i) h
      (fun j hj => ⟨j, hj, .refl⟩) fun j p hp hup => ?_
    obtain ⟨root, hroot, hdesc⟩ := hup
    exact ⟨root, hroot, hdesc.tail hp⟩
  · rintro ⟨root, hroot, hdesc⟩
    induction hdesc with
    | refl => exact under_of_root hroot
    | tail _ hp ih => exact under_of_parent hp ih

theorem remove_eq_self (h : ∀ i, roots i = false) : t.remove roots = t := by
  refine InvitationTable.ext rfl (funext fun i => ?_)
  have hnot : t.under roots i = false := Bool.eq_false_iff.2 fun hu => by
    obtain ⟨root, hroot, -⟩ := under_iff_descends.1 hu
    rw [h root] at hroot
    cases hroot
  rw [remove_row, hnot]
  rfl

def childrenOf (t : InvitationTable) (queue : List Nat) : List Nat :=
  (t.select fun r => r.invitedByInvitationId.any (· ∈ queue)).map (·.id)

theorem mem_childrenOf (queue : List Nat) (i : Nat) :
    i ∈ t.childrenOf queue ↔ ∃ p ∈ queue, t.Child p i := by
  simp only [childrenOf, select_ids, mem_ids, Child, parent_eq_some, Option.any_eq_true,
    decide_eq_true_eq]
  constructor
  · rintro ⟨r, hr, p, hp, hq⟩
    exact ⟨p, hq, r, hr, hp⟩
  · rintro ⟨p, hq, r, hr, hp⟩
    exact ⟨r, hr, p, hp, hq⟩

theorem nodup_childrenOf (queue : List Nat) : (t.childrenOf queue).Nodup := by
  rw [childrenOf, select_ids]
  exact nodup_ids ..

end InvitationTable

/-- `ids` is what the loop of `collectInvitationTree` returns, once its queue is empty. -/
def Collects (t : InvitationTable) (rootIds ids : List Nat) : Prop :=
  ∃ n, Loop t.childrenOf n rootIds.eraseDups rootIds ids

variable {t : InvitationTable} {n fuel i : Nat} {all queue rootIds ids ids' : List Nat} {w : World}
  {guestId : UserId}

theorem exists_collects (t : InvitationTable) (rootIds : List Nat) :
    ∃ n ids, n ≤ t.next + 1 ∧ Loop t.childrenOf n rootIds.eraseDups rootIds ids :=
  exists_loop (k := 0) mem_childrenOf child_lt child_lt_next
    (fun _ _ => Nat.zero_le _) (Nat.le_refl _)

theorem Collects.unique (h : Collects t rootIds ids) (h' : Collects t rootIds ids') :
    ids = ids' := by
  obtain ⟨n, h⟩ := h
  obtain ⟨m, h'⟩ := h'
  exact (h.unique h').2

theorem Collects.nodup (h : Collects t rootIds ids) : ids.Nodup := by
  obtain ⟨n, h⟩ := h
  exact h.nodup nodup_childrenOf (nodup_eraseDups _)

theorem Collects.mem_iff (h : Collects t rootIds ids) :
    i ∈ ids ↔ ∃ root ∈ rootIds, ReflTransGen t.Child root i := by
  obtain ⟨n, h⟩ := h
  rw [h.mem_iff mem_childrenOf, List.mem_eraseDups]
  constructor
  · rintro (hi | ⟨root, hroot, hdesc⟩)
    · exact ⟨i, hi, .refl⟩
    · exact ⟨root, hroot, hdesc.to_reflTransGen⟩
  · rintro ⟨root, hroot, hdesc⟩
    rcases Relation.reflTransGen_iff_eq_or_transGen.1 hdesc with rfl | hdesc
    · exact .inl hroot
    · exact .inr ⟨root, hroot, hdesc⟩

/-! ### The programs, run alone -/

/-- With fuel for all rounds but one, which finds nothing, the loop runs to its end. -/
theorem collectLevels_solo (h : Loop w.db.invitations.childrenOf n all queue ids)
    (hn : n ≤ fuel + 1) : (collectLevels fuel all queue).solo (fun _ => false) w =
      (.ok ids, w) := by
  induction h generalizing fuel with
  | done => cases fuel <;> rfl
  | @round n all queue ids hne hloop ih =>
    cases queue with
    | nil => exact absurd rfl hne
    | cons i queue =>
      cases fuel with
      | zero =>
        obtain rfl : n = 0 := by omega
        generalize hq : w.db.invitations.childrenOf (i :: queue) = below at hloop
        cases hloop
        rw [add_nil]
        rfl
      | succ fuel =>
        simp only [collectLevels, liftM_eq]
        rw [Prog.solo_bind_ok (solo_perform.trans solo_findManyInvitations)]
        exact ih (by omega)

theorem collectInvitationTree_solo (h : Collects w.db.invitations rootIds ids) :
    (collectInvitationTree rootIds).solo (fun _ => false) w = (.ok ids, w) := by
  obtain ⟨n, ids', hn, hloop⟩ := exists_collects w.db.invitations rootIds
  obtain rfl := h.unique ⟨n, hloop⟩
  exact collectLevels_solo hloop hn

/-- The deletion of the guest's own invitations, and nothing else. -/
def deleteOwn (guestId : UserId) : Program Unit :=
  perform (deleteManyInvitations (·.guestProfileId = some guestId))

def owns (w : World) (guestId : UserId) (i : Nat) : Bool :=
  (w.row i).any (·.guestProfileId = some guestId)

theorem deleteOwn_solo : (deleteOwn guestId).solo (fun _ => false) w =
    (.ok (), w.setInvitations (w.db.invitations.remove (owns w guestId))) :=
  solo_perform.trans solo_deleteManyInvitations

theorem remove_collected (h : Collects w.db.invitations rootIds ids)
    (hroots : ∀ i, i ∈ rootIds ↔ owns w guestId i = true) :
    (w.db.invitations.remove fun i => (w.row i).any (·.id ∈ ids)) =
      w.db.invitations.remove (owns w guestId) := by
  have hids : ∀ i, (w.row i).any (·.id ∈ ids) = true ↔ (w.row i).isSome ∧ i ∈ ids := fun i => by
    cases hr : w.row i with
    | none => simp
    | some r => simp [w.db.invitations.id_eq hr]
  refine remove_congr fun i => ?_
  rw [under_iff_descends, under_iff_descends]
  constructor
  · rintro ⟨j, hj, hji⟩
    obtain ⟨root, hroot, hdesc⟩ := h.mem_iff.1 ((hids j).1 hj).2
    exact ⟨root, (hroots root).1 hroot, hdesc.trans hji⟩
  · rintro ⟨root, hroot, hdesc⟩
    obtain ⟨r, hr, -⟩ := (Option.any_eq_true _ _).1 hroot
    exact ⟨root, (hids root).2 ⟨Option.isSome_of_eq_some hr,
      h.mem_iff.2 ⟨root, (hroots root).2 hroot, .refl⟩⟩, hdesc⟩

theorem deleteByGuestId_solo :
    (deleteByGuestId guestId).solo (fun _ => false) w = (deleteOwn guestId).solo (fun _ =>
      false) w := by
  have hroots : ∀ i, i ∈ (w.db.invitations.select (·.guestProfileId = some guestId)).map (·.id) ↔
      owns w guestId i = true := fun i => by
    rw [select_ids, mem_ids]
    exact (Option.any_eq_true _ _).symm
  unfold deleteByGuestId
  simp only [liftM_eq]
  rw [Prog.solo_bind_ok (solo_perform.trans solo_findManyInvitations), deleteOwn_solo]
  split
  · rename_i hnone
    have hown : ∀ i, owns w guestId i = false := fun i => Bool.eq_false_iff.2 fun hi => by
      have hmem := (hroots i).2 hi
      rw [List.isEmpty_iff.1 hnone] at hmem
      cases hmem
    have hself : w.db.invitations.remove (owns w guestId) = w.db.invitations :=
      remove_eq_self hown
    exact congrArg (fun t => (Except.ok (), w.setInvitations t)) hself.symm
  · obtain ⟨n, ids, -, hloop⟩ := exists_collects w.db.invitations
      ((w.db.invitations.select (·.guestProfileId = some guestId)).map (·.id))
    have hcollects : Collects w.db.invitations _ ids := ⟨n, hloop⟩
    rw [Prog.solo_bind_ok (collectInvitationTree_solo hcollects), solo_perform,
      solo_deleteManyInvitations]
    exact congrArg (fun t => (Except.ok (), w.setInvitations t)) (remove_collected hcollects hroots)

/-! ### The tree along a run -/

/-- From `v` to `w` every row has kept its parent.  A new one has an id never given out before,
and its parent was there at `v` or is itself new, with an earlier id. -/
structure Grown (v w : World) : Prop where
  next : v.db.invitations.next ≤ w.db.invitations.next
  kept : ∀ i r, w.row i = some r → r.Keeps Invitation.invitedByInvitationId i v
  born : ∀ i r p, w.row i = some r → v.row i = none → r.invitedByInvitationId = some p →
    v.db.invitations.next ≤ i ∧ p < i ∧ ((v.row p).isSome ∨ v.db.invitations.next ≤ p)

namespace Grown

variable {u v : World}

theorem of_kept (hn : v.db.invitations.next ≤ w.db.invitations.next)
    (hk : ∀ i r, w.row i = some r → r.Keeps Invitation.invitedByInvitationId i v) : Grown v w := by
  refine ⟨hn, hk, fun i r p hr hnew hp => ⟨?_, w.db.invitations.parent_lt hr hp, ?_⟩⟩
  · refine Nat.le_of_not_lt fun hlt => ?_
    obtain ⟨x, hx, -⟩ := hk i r hr hlt
    rw [hnew] at hx
    cases hx
  · obtain ⟨y, hy⟩ := Option.isSome_iff_exists.1 (w.db.invitations.parent_row hr hp)
    by_cases hlt : p < v.db.invitations.next
    · obtain ⟨x, hx, -⟩ := hk p y hy hlt
      exact .inl (Option.isSome_of_eq_some hx)
    · exact .inr (Nat.le_of_not_lt hlt)

theorem of_db (h : w.db = v.db) : Grown v w :=
  .of_kept (by rw [h]) fun _ r hr _ => ⟨r, by rwa [World.row, ← h], rfl⟩

theorem trans (h : Grown u v) (k : Grown v w) : Grown u w :=
  .of_kept (h.next.trans k.next) fun i r hr hi => by
    obtain ⟨x, hx, hrx⟩ := k.kept i r hr (Nat.lt_of_lt_of_le hi h.next)
    obtain ⟨y, hy, hxy⟩ := h.kept i x hx hi
    exact ⟨y, hy, hrx.trans hxy⟩

end Grown

section

variable {R : World → World → Prop} {cfg : Config} {c : Call} {a v : World}

theorem Action.grown (hA : Action R cfg c a w v) : Grown w v :=
  .of_kept hA.next_le (hA.keeps fun _ _ _ => rfl)

theorem Passed.grown {s₀ u : World}
    {ts : List (System.Thread (Nat → Bool) World Exception Request)}
    (h : (service cfg).Passed s₀ u ts w) : Grown u w :=
  Passed.along_actions h (fun _ => .of_db rfl) (fun _ _ _ h k => h.trans k)
    (fun _ _ he => .of_db (environment_db he)) (fun _ _ => .of_db rfl)
    fun _ _ _ _ _ hA => hA.grown

/-- At every moment of a run the invitations form a forest that only grows at its leaves; the
loop ends on any list of ids with these and what descends from them, each once, whatever fuel
beyond the ids handed out; and a guest's invitations go with the same others as by the cascade
alone. -/
theorem collectInvitationTree_closure {u : World}
    {ts : List (System.Thread (Nat → Bool) World Exception Request)}
    (h : (service cfg).Passed .empty u ts w) :
    Grown u w ∧ (∀ i, ¬ TransGen w.db.invitations.Child i i) ∧
      (∀ rootIds, ∃ ids, Collects w.db.invitations rootIds ids ∧
        (∀ ids', Collects w.db.invitations rootIds ids' → ids' = ids) ∧
        (∀ fuel, w.db.invitations.next ≤ fuel →
          (collectLevels fuel rootIds.eraseDups rootIds).solo (fun _ => false) w = (.ok ids, w)) ∧
        (collectInvitationTree rootIds).solo (fun _ => false) w = (.ok ids, w) ∧
        ids.Nodup ∧
        ∀ i, i ∈ ids ↔ ∃ root ∈ rootIds, ReflTransGen w.db.invitations.Child root i) ∧
      ∀ guestId, ∃ v,
        (deleteByGuestId guestId).solo (fun _ => false) w = (.ok (), v) ∧
        (deleteOwn guestId).solo (fun _ => false) w = (.ok (), v) ∧
        ∀ i r, v.row i = some r ↔ w.row i = some r ∧
          ¬ ∃ root, owns w guestId root = true ∧ ReflTransGen w.db.invitations.Child root i := by
  refine ⟨Passed.grown h, w.db.invitations.acyclic, fun rootIds => ?_, fun guestId => ?_⟩
  · obtain ⟨n, ids, hn, hloop⟩ := exists_collects w.db.invitations rootIds
    have hids : Collects w.db.invitations rootIds ids := ⟨n, hloop⟩
    exact ⟨ids, hids, fun _ h' => h'.unique hids,
      fun fuel hfuel => collectLevels_solo hloop (hn.trans (Nat.succ_le_succ hfuel)),
      collectInvitationTree_solo hids, hids.nodup, fun _ => hids.mem_iff⟩
  · refine ⟨_, deleteByGuestId_solo.trans deleteOwn_solo, deleteOwn_solo, fun i r => ?_⟩
    rw [← under_iff_descends, World.setInvitations_row, remove_row]
    by_cases hu : w.db.invitations.under (owns w guestId) i = true <;> simp [hu]

end

section Example

def lineageRun : List Request :=
  [none, some 0, some 1, none].map fun parent =>
    ⟨.createInvitation {
      eventId := some 7, firstName := "A", lastName := "B", invitedByInvitationId := parent } 5,
      { tenantId := some 1 }⟩

def lineageWorld : World := (trace plainConfig lineageRun .empty).2

theorem collectInvitationTree_closure_lineage :
    Grown .empty lineageWorld ∧
      (collectInvitationTree [1, 0, 1]).solo (fun _ => false) lineageWorld =
        (.ok [1, 0, 2], lineageWorld) := by
  obtain ⟨ts, hts⟩ := (@serial_trace plainConfig lineageRun .empty (by decide)).interleaved
  obtain ⟨hgrown, -, hcollect, -⟩ := collectInvitationTree_closure hts.passed
  obtain ⟨ids, -, -, -, hrun, -, -⟩ := hcollect [1, 0, 1]
  have hfound : ((collectInvitationTree [1, 0, 1]).solo (fun _ => false) lineageWorld).1 =
      .ok [1, 0, 2] := by decide
  rw [show (collectInvitationTree [1, 0, 1]).solo (fun _ => false) lineageWorld = _ from hrun]
    at hfound ⊢
  obtain rfl := Except.ok.inj hfound
  exact ⟨hgrown, rfl⟩

end Example

end InvitationService

import InvitationService.Lifecycle.Runs

namespace InvitationService

open Resumption Query InvitationTable

/-! What the calls that remove invitations remove. -/

namespace InvitationTable

variable {t u : InvitationTable} {a b : Nat → Bool} {i j : Nat} {is : List Nat}

theorem under_iff : t.under a i = true ↔
    a i = true ∨ ∃ p, t.parent i = some p ∧ t.under a p = true := by
  rw [under_eq, Bool.or_eq_true]
  cases t.parent i <;> simp

theorem under_induction {P : Nat → Prop} (h : t.under a i = true)
    (root : ∀ j, a j = true → P j) (child : ∀ j p, t.parent j = some p → P p → P j) : P i := by
  induction i using Nat.strong_induction_on with
  | _ i ih =>
    rcases under_iff.1 h with ha | ⟨p, hp, hu⟩
    · exact root i ha
    · obtain ⟨r, hr, hrp⟩ := parent_eq_some.1 hp
      exact child i p hp (ih p (t.parent_lt hr hrp) hu)

theorem under_of_imp (h : ∀ j, a j = true → t.under b j = true) (hi : t.under a i = true) :
    t.under b i = true :=
  under_induction hi h fun _ _ hp hb => under_of_parent hp hb

theorem under_remove (hi : t.under a i = false) : (t.remove a).under b i = t.under b i := by
  induction i using Nat.strong_induction_on with
  | _ i ih =>
    have hpar : (t.remove a).parent i = t.parent i := by
      rw [parent, parent, remove_row, if_neg (by simp [hi])]
    rw [under_eq, under_eq, hpar]
    cases hp : t.parent i with
    | none => rfl
    | some p =>
      obtain ⟨r, hr, hrp⟩ := parent_eq_some.1 hp
      have hup : t.under a p = false := Bool.eq_false_iff.2 fun h => by
        rw [under_of_parent hp h] at hi
        cases hi
      dsimp only
      rw [ih p (t.parent_lt hr hrp) hup]

theorem remove_remove : (t.remove a).remove b = t.remove fun j => a j || b j := by
  refine InvitationTable.ext rfl (funext fun i => ?_)
  have hor : t.under (fun j => a j || b j) i = (t.under a i || t.under b i) := by
    rw [Bool.eq_iff_iff, Bool.or_eq_true]
    constructor
    · intro h
      refine under_induction (P := fun i => t.under a i = true ∨ t.under b i = true) h
        (fun j hj => ?_) fun j p hp hp' => ?_
      · rcases Bool.or_eq_true_iff.1 hj with hj | hj
        · exact .inl (under_of_root hj)
        · exact .inr (under_of_root hj)
      · exact hp'.imp (under_of_parent hp) (under_of_parent hp)
    · rintro (h | h)
      · exact under_of_imp (fun j hj => under_of_root (by simp [hj])) h
      · exact under_of_imp (fun j hj => under_of_root (by simp [hj])) h
  rw [remove_row, remove_row, remove_row, hor]
  cases ha : t.under a i with
  | true => simp
  | false => simp [under_remove ha]

theorem under_congr (h : ∀ j, a j = b j) : t.under a i = t.under b i := by
  rw [show a = b from funext h]

theorem remove_congr (h : ∀ j, t.under a j = true ↔ t.under b j = true) :
    t.remove a = t.remove b :=
  InvitationTable.ext rfl (funext fun i => by
    rw [remove_row, remove_row, Bool.eq_iff_iff.2 (h i)])

theorem remove_false (h : ∀ j, a j = false) : t.remove a = t := by
  refine InvitationTable.ext rfl (funext fun i => ?_)
  have hu : ¬ t.under a i = true := fun hu =>
    under_induction (P := fun _ => False) hu (fun j hj => by rw [h j] at hj; cases hj)
      fun _ _ _ hp => hp
  rw [remove_row, if_neg hu]

end InvitationTable

theorem RemoveAll.eq_remove {t u : InvitationTable} {is : List Nat} (h : RemoveAll t is u) :
    u = t.remove (· ∈ is) := by
  induction h with
  | nil => exact (remove_false (by simp)).symm
  | cons _ _ ih =>
    rw [ih, remove_remove]
    congr 1
    funext j
    rw [Bool.eq_iff_iff]
    simp

theorem RemoveAll.isSome {t u : InvitationTable} {is : List Nat} (h : RemoveAll t is u) :
    ∀ i ∈ is, (t.row i).isSome := by
  induction h with
  | nil => simp
  | cons hi _ ih =>
    refine List.forall_mem_cons.2 ⟨hi, fun j hj => ?_⟩
    obtain ⟨r, hr⟩ := Option.isSome_iff_exists.1 (ih j hj)
    exact Option.isSome_of_eq_some (row_of_remove hr)

/-- The rows that a call is to remove, before the foreign key cascades. -/
def Call.targets (c : Call) (t : InvitationTable) (i : Nat) : Bool :=
  match c with
  | .removePlusOneInvitation id _ | .removeInvitation id _ => i = id
  | .removeAllPlusOnesByInvitationId p _ => (t.row i).any fun r =>
      r.invitedByInvitationId = some p && (t.row p).any (·.eventId = r.eventId)
  | .removeInvitations ids _ => i ∈ ids
  | .deleteUserInvitations u => (t.row i).any (·.guestProfileId = some u)
  | .deleteEventInvitations es => (t.row i).any (·.eventId ∈ es)
  | _ => false

def Call.Scoped (c : Call) (e : EventId) : Prop :=
  match c with
  | .removeInvitation _ activeEventId | .removeInvitations _ activeEventId =>
    activeEventId = some e
  | .deleteEventInvitations es => e ∈ es
  | _ => True

def Invitation.standing (r : Invitation) : Invitation :=
  { r with maxInvitees := 0, updatedAt := none }

structure Cleared (c : Call) (t u : InvitationTable) : Prop where
  next : u.next = t.next
  row : ∀ i, (u.row i).map Invitation.standing =
    ((t.remove (c.targets t)).row i).map Invitation.standing
  scope : ∀ i r, c.targets t i = true → t.row i = some r → c.Scoped r.eventId

theorem Cleared.row_eq {c : Call} {t u : InvitationTable} {i : Nat} (h : Cleared c t u)
    (hi : t.under (c.targets t) i = false) :
    (u.row i).map Invitation.standing = (t.row i).map Invitation.standing := by
  rw [h.row, remove_row, if_neg (by simp [hi])]

structure Clears (c : Call) (t : InvitationTable) (v w : World) : Prop where
  side : Side v w
  table : w.db.invitations = v.db.invitations ∨
    (v.db.invitations = t ∧ Cleared c t w.db.invitations)

section

variable {cfg : Config} {ctx : Context} {c : Call} {s t u : World} {t₀ : InvitationTable}
  {α : Type} {b : Query α}

theorem Clears.of_hush : ∀ t u : World, Hush t u → Clears c t₀ t u := fun _ _ h =>
  ⟨h.1, .inl (by rw [h.2])⟩

abbrev Removes (c : Call) (t₀ : InvitationTable) (p : Program α) (s : World) : Prop :=
  s.db.invitations = t₀ →
    p.Within (fun s t => t.db = s.db) (Clears c t₀) (fun _ _ => True) s

theorem Removes.quiet {γ : Type} {g : α → Program γ} (hb : b.Moves Hush)
    (h : ∀ t, t.db.invitations = t₀ → b.Ends (fun x u => u.db.invitations = t₀ →
      (g x).Within (fun s t => t.db = s.db) (Clears c t₀) (fun _ _ => True) u) t) :
    Removes c t₀ (perform b >>= g) s := fun hs =>
  Prog.Within.bind <| within_perform_of_moves hb Clears.of_hush fun t ht => by
    have ht : t.db.invitations = t₀ := by rw [ht, hs]
    exact (h t ht).mono fun _ u hu hh => hu (by rw [hh.2, ht])

theorem Removes.remove (hb : b.Moves Side) (h : ∀ t, t.db.invitations = t₀ → b.Post (fun
      | .ok _, u => Cleared c t₀ u.db.invitations ∨ u.db.invitations = t₀
      | .error _, u => u.db.invitations = t₀) t) :
    Removes c t₀ (perform b) s := fun hs =>
  within_perform fun t ht => by
    have ht : t.db.invitations = t₀ := by rw [ht, hs]
    refine ((hb t).and (h t ht)).mono fun r u hu => ?_
    cases r with
    | ok x =>
      exact ⟨⟨hu.1, hu.2.elim (fun hc => .inr ⟨ht, hc⟩) fun he => .inl (he.trans ht.symm)⟩, trivial⟩
    | error e => exact ⟨hu.1, .inl (hu.2.trans ht.symm)⟩

theorem Removes.transaction (hb : b.Moves Side) (h : ∀ t, t.db.invitations = t₀ →
      b.Ends (fun _ u => Cleared c t₀ u.db.invitations) t) :
    Removes c t₀ (Query.transaction b) s := fun hs =>
  within_transaction hb (fun _ _ hu => ⟨hu.rollback, .inl rfl⟩) fun t ht => by
    have ht : t.db.invitations = t₀ := by rw [ht, hs]
    exact (h t ht).mono fun _ u hu hside => ⟨⟨hside, .inr ⟨ht, hu⟩⟩, trivial⟩

theorem Cleared.of_remove {roots : Nat → Bool} (hu : u.db.invitations = t₀.remove roots)
    (hroots : ∀ i, t₀.under roots i = true ↔ t₀.under (c.targets t₀) i = true)
    (hscope : ∀ i r, c.targets t₀ i = true → t₀.row i = some r → c.Scoped r.eventId) :
    Cleared c t₀ u.db.invitations where
  next := by rw [hu]; rfl
  row i := by rw [hu, remove_congr hroots]
  scope := hscope

theorem delete_removes {i : Nat} {e : Option EventId} :
    Removes (.removeInvitation i e) t₀ (AdminWrite.delete i e) s := by
  unfold AdminWrite.delete
  simp only [liftM_eq]
  refine Removes.quiet (hush_ensureExists.bind Hush.trans fun r =>
    hush_assertMatchesActiveEvent) fun t ht => ?_
  simp only [Prog.ends_bind, ends_ensureExists, ends_assertMatchesActiveEvent]
  rintro r hr rfl hu
  have hr : t₀.row i = some r := ht ▸ hr
  refine Prog.Within.bind <| Prog.Within.weaken (Removes.remove moves_deleteInvitation
    (fun v hv => ?_) hu) fun _ _ _ => trivial
  rw [post_deleteInvitation]
  refine ⟨hv, fun x _ => .inl (.of_remove (by rw [← hv]; rfl) (fun j => ?_) fun j x hj hx => ?_),
    fun _ => hv⟩
  · rw [under_congr fun k => beq_eq_decide k i]
    rfl
  · obtain rfl : j = i := of_decide_eq_true hj
    rw [hr] at hx
    cases hx
    rfl

theorem ends_deleteEach {ids : List Nat} {e : Option EventId} {w : World}
    {K : PUnit → World → Prop} (h : ∀ t, RemoveAll w.db.invitations ids t →
      (∀ i ∈ ids, ∀ r, w.row i = some r → e = some r.eventId) → K () (w.setInvitations t)) :
    (ids.forM fun id => do
      let invitation ← ensureExists id
      AdminWrite.assertMatchesActiveEvent invitation.eventId e
      let _ ← deleteInvitation id : Query Unit).Ends K w := by
  induction ids generalizing w with
  | nil => exact h _ .nil (by simp)
  | cons i ids ih =>
    simp only [Prog.forM_cons, Prog.ends_bind, ends_ensureExists, ends_assertMatchesActiveEvent,
      ends_deleteInvitation]
    rintro r hr rfl _ _
    refine ih fun t ht hids => h t (.cons (Option.isSome_of_eq_some hr) ht) fun j hj x hx => ?_
    rcases List.mem_cons.1 hj with rfl | hj
    · rw [hr] at hx
      cases hx
      rfl
    · obtain ⟨y, hy⟩ := Option.isSome_iff_exists.1 (ht.isSome j hj)
      have hyx : w.row j = some y := row_of_remove hy
      rw [hx] at hyx
      cases hyx
      exact hids j hj x hy

theorem deleteMany_removes {ids : List Nat} {e : Option EventId} :
    Removes (.removeInvitations ids e) t₀ (AdminWrite.deleteMany ids e) s := by
  unfold AdminWrite.deleteMany
  split
  · exact fun _ => trivial
  · refine Removes.transaction AdminWrite.moves_deleteMany fun t ht => ends_deleteEach
      fun u hu hscope => ?_
    refine .of_remove (ht ▸ hu.eq_remove) (fun j => Iff.rfl) fun j x hj hx => ?_
    subst ht
    exact hscope j (of_decide_eq_true hj) x hx

theorem deleteByEventIds_removes {es : List EventId} :
    Removes (.deleteEventInvitations es) t₀ (InvitationWrite.deleteByEventIds es) s := by
  unfold InvitationWrite.deleteByEventIds
  split
  · exact fun _ => trivial
  · refine Removes.remove moves_deleteManyInvitations fun t ht => Block.post_call.2 ⟨ht, .inl ?_⟩
    subst ht
    refine .of_remove rfl (fun j => Iff.rfl) fun j x hj hx => ?_
    exact show x.eventId ∈ es by simpa [Call.targets, hx] using hj

structure Tree (t₀ : InvitationTable) (roots : Nat → Bool) (ids : List Nat) : Prop where
  root : ∀ i, (t₀.row i).isSome → roots i = true → i ∈ ids
  under : ∀ i ∈ ids, t₀.under roots i = true

theorem within_collectLevels {roots : Nat → Bool} {n : Nat} {all queue : List Nat}
    (hs : s.db.invitations = t₀) (hall : Tree t₀ roots all)
    (hqueue : ∀ i ∈ queue, t₀.under roots i = true) :
    (InvitationWrite.collectLevels n all queue).Within (fun s t => t.db = s.db) (Clears c t₀)
      (fun ids u => u.db.invitations = t₀ ∧ Tree t₀ roots ids) s := by
  induction n generalizing all queue s with
  | zero => exact ⟨hs, hall⟩
  | succ n ih =>
    cases queue with
    | nil => exact ⟨hs, hall⟩
    | cons i queue =>
      refine Prog.Within.bind <| within_perform_of_moves hush_findManyInvitations Clears.of_hush
        fun t ht => ends_findManyInvitations.2 fun _ => ?_
      have ht : t.db.invitations = t₀ := by rw [ht, hs]
      have hunder : ∀ j ∈ (t.db.invitations.select fun r =>
          r.invitedByInvitationId.any (· ∈ i :: queue)).map (·.id), t₀.under roots j = true := by
        intro j hj
        obtain ⟨r, hr, rfl⟩ := List.mem_map.1 hj
        obtain ⟨hrow, hany⟩ := mem_select.1 hr
        obtain ⟨p, hp, hmem⟩ := (Option.any_eq_true _ _).1 hany
        rw [ht] at hrow
        exact under_of_parent (parent_eq_some.2 ⟨r, hrow, hp⟩) (hqueue p (of_decide_eq_true hmem))
      refine ih ht ⟨fun j hj hr => List.mem_append_left _ (hall.root j hj hr),
        fun j hj => ?_⟩ hunder
      rcases List.mem_append.1 hj with hj | hj
      · exact hall.under j hj
      · exact hunder j (List.mem_of_mem_filter hj)

theorem deleteByGuestId_removes {user : UserId} :
    Removes (.deleteUserInvitations user) t₀ (InvitationWrite.deleteByGuestId user) s := by
  unfold InvitationWrite.deleteByGuestId InvitationWrite.collectInvitationTree
  simp only [liftM_eq]
  refine Removes.quiet hush_findManyInvitations fun t ht => ends_findManyInvitations.2 fun hu => ?_
  have hroots : ∀ i, i ∈ (t.db.invitations.select (·.guestProfileId = some user)).map (·.id) ↔
      (Call.deleteUserInvitations user).targets t₀ i = true := fun i => by
    rw [select_ids, mem_ids, ht]
    exact (Option.any_eq_true _ _).symm
  split
  · trivial
  · refine Prog.Within.bind <| Prog.Within.bind <| within_perform_of_moves
      (Block.moves_observe Hush.refl) Clears.of_hush fun v hv => Block.ends_observe.2 fun _ => ?_
    have hv : v.db.invitations = t₀ := by rw [hv, hu]
    have htree : Tree t₀ ((Call.deleteUserInvitations user).targets t₀)
        ((t.db.invitations.select (·.guestProfileId = some user)).map (·.id)).eraseDups :=
      ⟨fun i _ hi => List.mem_eraseDups.2 ((hroots i).2 hi),
        fun i hi => under_of_root ((hroots i).1 (List.mem_eraseDups.1 hi))⟩
    refine (within_collectLevels hv htree fun i hi => under_of_root ((hroots i).1 hi)).weaken
      fun ids w hw => ?_
    obtain ⟨hw, hids⟩ := hw
    refine Removes.remove moves_deleteManyInvitations (fun x hx => Block.post_call.2 ⟨hx, .inl ?_⟩)
      hw
    subst hx
    refine .of_remove rfl (fun j => ⟨under_of_imp fun i hi => ?_, under_of_imp fun i hi => ?_⟩)
      fun j y _ _ => trivial
    · obtain ⟨r, hr, hmem⟩ := (Option.any_eq_true _ _).1 hi
      exact hids.under i (x.db.invitations.id_eq hr ▸ of_decide_eq_true hmem)
    · obtain ⟨r, hr, -⟩ := (Option.any_eq_true _ _).1 hi
      refine under_of_root ((Option.any_eq_true _ _).2 ⟨r, hr, decide_eq_true ?_⟩)
      rw [x.db.invitations.id_eq hr]
      exact hids.root i (Option.isSome_of_eq_some hr) hi

theorem standing_capacity {n : Int} {now : Nat} (r : Invitation) :
    ((capacityUpdate n).apply now r).standing = r.standing := by
  simp [Invitation.standing, InvitationUpdate.apply, CountUpdate.apply]

theorem standing_patch {v : InvitationTable} {p now : Nat} {n : Int} (i : Nat) :
    ((v.patch p (capacityUpdate n) now).row i).map Invitation.standing =
      (v.row i).map Invitation.standing := by
  rw [patch_row]
  split
  · rw [Option.map_map]
    exact congrArg (Option.map · _) (funext standing_capacity)
  · rfl

theorem Cleared.of_patch {v : InvitationTable} {p now : Nat} {n : Int}
    (hu : u.db.invitations = v.patch p (capacityUpdate n) now)
    (hv : v = t₀.remove (c.targets t₀)) (hscope : ∀ e, c.Scoped e) :
    Cleared c t₀ u.db.invitations where
  next := by rw [hu, hv]; rfl
  row i := by rw [hu, standing_patch, hv]
  scope _ r _ _ := hscope r.eventId

theorem deletePlusOne_removes {i : Nat} {user : UserId} :
    Removes (.removePlusOneInvitation i user) t₀ (GuestWrite.deletePlusOne cfg ctx i user) s := by
  rw [GuestWrite.deletePlusOne_eq]
  refine Removes.transaction GuestWrite.moves_deletePlusOneTransaction fun t ht =>
    GuestWrite.ends_deletePlusOneTransaction fun r p x v _ _ hv => ?_
  subst ht
  exact .of_patch (congrArg Database.invitations hv)
    (congrArg _ (funext fun j => beq_eq_decide j i)) fun _ => trivial

theorem deleteAllPlusOnes_removes {p : Nat} {user : UserId} :
    Removes (.removeAllPlusOnesByInvitationId p user) t₀
      (GuestWrite.deleteAllPlusOnes cfg ctx p user) s := by
  rw [GuestWrite.deleteAllPlusOnes_eq]
  refine Removes.transaction GuestWrite.moves_deleteAllTransaction fun t ht =>
    GuestWrite.ends_deleteAllTransaction fun r is w rows v hr his hw hv => ?_
  subst ht his
  refine .of_patch (congrArg Database.invitations hv) (hw.eq_remove.trans (congrArg _ (funext
    fun j => ?_))) fun _ => trivial
  rw [Bool.eq_iff_iff, decide_eq_true_iff, select_ids, mem_ids]
  simp only [Call.targets, Option.any_eq_true, show t.db.invitations.row p = some r from hr]
  constructor
  · rintro ⟨x, hx, hq⟩
    exact ⟨x, hx, by simpa [eq_comm (a := r.eventId)] using hq⟩
  · rintro ⟨x, hx, hq⟩
    exact ⟨x, hx, by simpa [eq_comm (a := r.eventId)] using hq⟩

def Call.removal : Call → Bool
  | .removePlusOneInvitation .. | .removeAllPlusOnesByInvitationId .. | .removeInvitation ..
  | .removeInvitations .. | .deleteUserInvitations _ | .deleteEventInvitations _ => true
  | _ => false

theorem Removes.discard {γ : Type} {p : Program γ} (h : Removes c t₀ p s) :
    Removes c t₀ (do let _ ← p) s := fun hs =>
  Prog.Within.bind <| (h hs).weaken fun _ _ _ => trivial

theorem execute_removes {q : Request} (hq : q.call.removal = true) :
    Removes q.call t₀ (execute cfg q) s := by
  obtain ⟨c, ctx⟩ := q
  cases c with
  | removePlusOneInvitation i user => exact deletePlusOne_removes.discard
  | removeAllPlusOnesByInvitationId p user => exact deleteAllPlusOnes_removes.discard
  | removeInvitation i e => exact delete_removes
  | removeInvitations ids e => exact deleteMany_removes
  | deleteUserInvitations user => exact deleteByGuestId_removes
  | deleteEventInvitations es => exact deleteByEventIds_removes
  | _ => cases hq

theorem removal_guarantees {q : Request} (hq : q.call.removal = true) :
    ((service cfg).exec q).Guarantees (Relation.ReflTransGen (service cfg).env)
      (Clears q.call s.db.invitations) (fun _ _ => True) ((service cfg).arrive q s) :=
  have hr : Removes q.call s.db.invitations (execute cfg q) ((service cfg).arrive q s) :=
    execute_removes hq
  (hr rfl).mono (fun _ _ => environments_db) (fun _ _ h => h) fun _ _ _ => trivial

/-- A removal as a whole, when no other call is under way: its targets are removed with all their
descendants, or nothing is. -/
theorem removal_of_exec {q : Request} {r : Except Exception Unit} (hq : q.call.removal = true)
    (hex : Prog.Exec (Relation.ReflTransGen (service cfg).env) ((service cfg).exec q)
      ((service cfg).arrive q s) r t) :
    t.db.invitations = s.db.invitations ∨ Cleared q.call s.db.invitations t.db.invitations := by
  refine (hex.sound (I := fun v => v.db.invitations = s.db.invitations ∨
    Cleared q.call s.db.invitations v.db.invitations) (removal_guarantees hq) (.inl rfl) ?_ ?_).1
  · intro v w hv he
    rwa [environments_db he]
  · intro v w hv hA
    rcases hA.table with hA | ⟨-, hA⟩
    · rwa [hA]
    · exact .inr hA

end

end InvitationService

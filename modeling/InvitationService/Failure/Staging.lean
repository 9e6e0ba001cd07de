import InvitationService.Invariants.Status
import InvitationService.Lifecycle.Admin
import InvitationService.Lifecycle.Alone

open Relation (ReflTransGen)

namespace InvitationService

open Resumption Query

variable {ids : List Nat} {staged : Bool} {e : Option EventId} {w : World} {r : Invitation}

/-- The row is of the active event, in a status that the flag allows. -/
def Stageable (staged : Bool) (e : Option EventId) (r : Invitation) : Prop :=
  e = some r.eventId ∧
    if staged then AdminWrite.canStage r = true else AdminWrite.canUnstage r = true

/-- Some listed id does not exist, or its row is of another event than the active one or in a
status that the flag does not allow. -/
def StagingRefused (ids : List Nat) (staged : Bool) (e : Option EventId) (w : World) : Prop :=
  ∃ i ∈ ids, w.row i = none ∨ ∃ r, w.row i = some r ∧ ¬ Stageable staged e r

def Invitation.afterStaging (r : Invitation) (staged : Bool) (now : Nat) : Invitation :=
  { r with status := AdminWrite.stagedStatus staged r, updatedAt := some now }

/-- Every listed row has made the transition, and no other row has changed. -/
structure StagedRows (ids : List Nat) (staged : Bool) (now : Nat) (t u : InvitationTable) :
    Prop where
  listed : ∀ i ∈ ids, ∃ r, t.row i = some r ∧ u.row i = some (r.afterStaging staged now)
  other : ∀ i, i ∉ ids → u.row i = t.row i
  next : u.next = t.next

namespace InvitationTable

variable {t : InvitationTable}

theorem length_select_eq_iff :
    (t.select (·.id ∈ ids)).length = ids.eraseDups.length ↔ ∀ i ∈ ids, (t.row i).isSome := by
  have hmem : ∀ i, i ∈ t.ids (·.id ∈ ids) ↔ i ∈ ids ∧ (t.row i).isSome := by
    intro i
    rw [mem_ids, Option.isSome_iff_exists]
    constructor
    · rintro ⟨r, hr, hi⟩
      rw [← t.id_eq hr]
      exact ⟨of_decide_eq_true hi, r, t.id_eq hr ▸ hr⟩
    · rintro ⟨hi, r, hr⟩
      exact ⟨r, hr, decide_eq_true (t.id_eq hr ▸ hi)⟩
  have hsub : t.ids (·.id ∈ ids) ⊆ ids.eraseDups := fun i hi =>
    List.mem_eraseDups.2 ((hmem i).1 hi).1
  rw [← List.length_map (f := (·.id)), select_ids]
  constructor
  · intro hlen i hi
    have hperm := ((nodup_ids t _).subperm hsub).perm_of_length_le hlen.ge
    exact ((hmem i).1 (hperm.mem_iff.2 (List.mem_eraseDups.2 hi))).2
  · intro hall
    refine le_antisymm ((nodup_ids t _).subperm hsub).length_le ?_
    refine ((nodup_eraseDups ids).subperm fun i hi => ?_).length_le
    have hi := List.mem_eraseDups.1 hi
    exact (hmem i).2 ⟨hi, hall i hi⟩

end InvitationTable

theorem not_stagingRefused : ¬ StagingRefused ids staged e w ↔
    (∀ i ∈ ids, (w.row i).isSome) ∧
      ∀ r ∈ w.db.invitations.select (·.id ∈ ids), Stageable staged e r := by
  constructor
  · intro h
    refine ⟨fun i hi => ?_, fun r hr => ?_⟩
    · by_contra hnone
      exact h ⟨i, hi, .inl (by simpa using hnone)⟩
    · obtain ⟨hrow, hid⟩ := InvitationTable.mem_select.1 hr
      by_contra hnot
      exact h ⟨r.id, of_decide_eq_true hid, .inr ⟨r, hrow, hnot⟩⟩
  · rintro ⟨hall, hrows⟩ ⟨i, hi, hnone | ⟨r, hr, hnot⟩⟩
    · have := hall i hi
      rw [hnone] at this
      cases this
    · obtain rfl := w.db.invitations.id_eq hr
      exact hnot (hrows r (InvitationTable.mem_select.2 ⟨hr, decide_eq_true hi⟩))

namespace AdminWrite

theorem ends_stageable {rs : List Invitation} {K : PUnit → World → Prop}
    (h : (∀ r ∈ rs, Stageable staged e r) → K () w) : (rs.forM (stageGuard staged e)).Ends K w := by
  induction rs with
  | nil => exact h (by simp)
  | cons r rs ih =>
    simp only [Prog.forM_cons, Prog.ends_bind, stageGuard, ends_assertMatchesActiveEvent]
    intro hevent
    split
    · trivial
    · rename_i hstatus
      refine ih fun hrs => h (List.forall_mem_cons.2 ⟨⟨hevent, ?_⟩, hrs⟩)
      cases staged <;> simp_all

theorem ends_readStaged_stageable (ids : List Nat) (staged : Bool) (e : Option EventId)
    {K : List Invitation → World → Prop}
    (h : ¬ StagingRefused ids staged e w → K (w.db.invitations.select (·.id ∈ ids)) w) :
    (readStaged ids staged e).Ends K w := by
  simp only [Prog.ends_bind, ends_findManyInvitations]
  split
  · trivial
  · rename_i hlen
    simp only [Prog.ends_bind]
    refine ends_stageable fun hrs => h (not_stagingRefused.2 ⟨?_, hrs⟩)
    exact InvitationTable.length_select_eq_iff.1 (not_not.1 hlen)

theorem looks_stageGuard : (stageGuard staged e r).Looks := by
  refine looks_assertMatchesActiveEvent.bind fun _ => ?_
  split <;> exact Prog.looks_ret _

theorem looks_readStaged (ids : List Nat) (staged : Bool) (e : Option EventId) :
    (readStaged ids staged e).Looks := by
  have hfind : (findManyInvitations (·.id ∈ ids)).Looks := Block.looks_call fun _ => rfl
  have hguards : ∀ rs : List Invitation, (rs.forM (stageGuard staged e)).Looks := fun rs =>
    Prog.Moves.forM (fun _ => rfl) (fun _ _ _ h k => k.trans h) fun _ => looks_stageGuard
  refine hfind.bind fun rs => ?_
  split
  · exact Prog.looks_ret _
  · exact (hguards rs).bind fun _ => Prog.looks_ret _

theorem solo_stageGuard (h : Stageable staged e r) :
    (stageGuard staged e r).solo false w = (.ok (), w) := by
  obtain ⟨rfl, hstatus⟩ := h
  rw [stageGuard, Prog.solo_bind_ok solo_assertMatchesActiveEvent]
  cases staged <;> simp_all

theorem solo_stageable {rs : List Invitation} (h : ∀ r ∈ rs, Stageable staged e r) :
    (rs.forM (stageGuard staged e)).solo false w = (.ok (), w) := by
  induction rs with
  | nil => rfl
  | cons r rs ih =>
    rw [Prog.forM_cons, Prog.solo_bind_ok (solo_stageGuard (h r List.mem_cons_self))]
    exact ih fun x hx => h x (List.mem_cons_of_mem _ hx)

theorem solo_readStaged (h : ¬ StagingRefused ids staged e w) :
    (readStaged ids staged e).solo false w = (.ok (w.db.invitations.select (·.id ∈ ids)), w) := by
  obtain ⟨hall, hrows⟩ := not_stagingRefused.1 h
  refine (Prog.solo_bind_ok solo_findManyInvitations).trans ?_
  rw [if_neg (not_not.2 (InvitationTable.length_select_eq_iff.2 hall)),
    Prog.solo_bind_ok (solo_stageable hrows)]
  rfl

abbrev stageRows (staged : Bool) (rs : List Invitation) : Query PUnit :=
  rs.forM fun r => do
    let _ ← updateInvitation r.id { status := some (stagedStatus staged r) }

theorem moves_stageRows (staged : Bool) (rs : List Invitation) :
    (stageRows staged rs).Moves fun v w => ∃ t, w = v.setInvitations t := by
  have hrefl : ∀ v : World, ∃ t, v = v.setInvitations t := fun v => ⟨_, v.setInvitations_self.symm⟩
  have htrans : ∀ u v w : World, (∃ t, v = u.setInvitations t) → (∃ t, w = v.setInvitations t) →
      ∃ t, w = u.setInvitations t := by
    rintro u _ _ ⟨t, rfl⟩ ⟨t', rfl⟩
    exact ⟨t', rfl⟩
  refine Prog.Moves.forM hrefl htrans fun r => ?_
  refine Prog.Moves.bind htrans (Block.moves_call hrefl fun v => ?_) fun _ => Prog.moves_ret hrefl _
  split
  · exact ⟨_, rfl⟩
  · exact hrefl v

theorem solo_stageRows (staged : Bool) {rs : List Invitation}
    (h : ∀ r ∈ rs, (w.row r.id).isSome) :
    ∃ t, (stageRows staged rs).solo false w = (.ok (), w.setInvitations t) := by
  induction rs generalizing w with
  | nil => exact ⟨_, rfl⟩
  | cons r rs ih =>
    obtain ⟨x, hx⟩ := Option.isSome_iff_exists.1 (h r List.mem_cons_self)
    obtain ⟨t, ht⟩ := ih (w := w.setInvitations (w.db.invitations.patch r.id
      { status := some (stagedStatus staged r) } w.now)) fun y hy => by
        have := h y (List.mem_cons_of_mem _ hy)
        rwa [← InvitationTable.isSome_patch_row] at this
    refine ⟨t, ?_⟩
    rw [stageRows, Prog.forM_cons]
    refine (Prog.solo_bind_ok (Prog.solo_bind_ok (solo_updateInvitation hx rfl))).trans ?_
    exact ht

end AdminWrite

theorem StageAll.stagedRows {now : Nat} {t u : InvitationTable}
    (h : StageAll staged now t (t.select (·.id ∈ ids)) u) (hall : ∀ i ∈ ids, (t.row i).isSome) :
    StagedRows ids staged now t u := by
  have hnodup := t.select_ids (·.id ∈ ids) ▸ t.nodup_ids (·.id ∈ ids)
  refine ⟨fun i hi => ?_, fun i hi => h.row_of_notMem fun hmem => ?_, h.next_eq⟩
  · obtain ⟨r, hr⟩ := Option.isSome_iff_exists.1 (hall i hi)
    obtain rfl := t.id_eq hr
    have hmem : r ∈ t.select (·.id ∈ ids) :=
      InvitationTable.mem_select.2 ⟨hr, decide_eq_true hi⟩
    refine ⟨r, hr, ?_⟩
    rw [h.row_of_mem hnodup hmem, hr]
    simp [InvitationUpdate.apply, CountUpdate.apply, Invitation.afterStaging]
  · obtain ⟨r, hr, rfl⟩ := List.mem_map.1 hmem
    exact hi (of_decide_eq_true (InvitationTable.mem_select.1 hr).2)

/-- Either the call throws and only the environment has done anything, or it has staged the
listed rows and done nothing else. -/
def AllOrNothing (ids : List Nat) (staged : Bool) (w : World) : Except Exception Unit → World → Prop
  | .error _, v => ReflTransGen World.Environment w v
  | .ok _, v => ∃ u t, ReflTransGen World.Environment w u ∧
      StagedRows ids staged u.now w.db.invitations t ∧ v = u.setInvitations t

/-- No message, no job, no cached contact and no outbox row; cached contacts may expire. -/
structure Traceless (w v : World) : Prop where
  journal : v.journal = w.journal
  outbox : v.db.outbox = w.db.outbox
  nextToken : v.nextToken = w.nextToken
  pendingContact : ∀ token, v.pendingContact token = w.pendingContact token ∨
    v.pendingContact token = none

theorem Traceless.of_environments {v : World} (h : ReflTransGen World.Environment w v) :
    Traceless w v := by
  induction h with
  | refl => exact ⟨rfl, rfl, rfl, fun _ => .inl rfl⟩
  | tail _ hstep ih =>
    cases hstep with
    | pass _ => exact ⟨ih.journal, ih.outbox, ih.nextToken, ih.pendingContact⟩
    | cool _ => exact ⟨ih.journal, ih.outbox, ih.nextToken, ih.pendingContact⟩
    | unlock _ => exact ⟨ih.journal, ih.outbox, ih.nextToken, ih.pendingContact⟩
    | forget token =>
      refine ⟨ih.journal, ih.outbox, ih.nextToken, fun token' => ?_⟩
      by_cases ht : token' = token
      · exact .inr (by simp [World.dropPending, ht])
      · simpa [World.dropPending, ht] using ih.pendingContact token'

theorem AllOrNothing.traceless {o : Except Exception Unit} {v : World}
    (h : AllOrNothing ids staged w o v) : Traceless w v := by
  cases o with
  | error er => exact .of_environments h
  | ok _ =>
    obtain ⟨u, t, hu, -, rfl⟩ := h
    have hq := Traceless.of_environments hu
    exact ⟨hq.journal, hq.outbox, hq.nextToken, hq.pendingContact⟩

theorem StagingRefused.congr {v : World} (h : v.db = w.db) :
    StagingRefused ids staged e v ↔ StagingRefused ids staged e w := by
  unfold StagingRefused World.row
  rw [h]

theorem bulkStage_guarantees : (AdminWrite.bulkStage ids staged e).Guarantees
    (ReflTransGen World.Environment) (fun _ _ => True)
    (fun o v => AllOrNothing ids staged w o v ∧
      (o = .ok () → ¬ StagingRefused ids staged e w)) w := by
  unfold AdminWrite.bulkStage
  simp only [liftM_eq]
  refine Prog.Guarantees.bind (guarantees_perform fun u hu => ?_)
  have hends : (AdminWrite.readStaged ids staged e).Ends (fun rs _ =>
      ¬ StagingRefused ids staged e u ∧ rs = u.db.invitations.select (·.id ∈ ids)) u :=
    AdminWrite.ends_readStaged_stageable ids staged e fun h => ⟨h, rfl⟩
  refine ((AdminWrite.looks_readStaged ids staged e u).and hends).mono fun o v hv => ⟨trivial, ?_⟩
  obtain ⟨rfl, hv⟩ := hv
  cases o with
  | error er => exact ⟨hu, nofun⟩
  | ok rs =>
    obtain ⟨hnot, rfl⟩ := hv
    have hdb : v.db = w.db := environments_db hu
    have hnot : ¬ StagingRefused ids staged e w := fun h => hnot ((StagingRefused.congr hdb).2 h)
    have hall := (not_stagingRefused.1 hnot).1
    refine guarantees_transaction fun t ht => ?_
    have hdbt : t.db = w.db := (environments_db ht).trans hdb
    have htw : ReflTransGen World.Environment w t := hu.trans ht
    have hends : (AdminWrite.stageRows staged (v.db.invitations.select (·.id ∈ ids))).Ends
        (fun _ x => ∃ T, StageAll staged t.now t.db.invitations
          (v.db.invitations.select (·.id ∈ ids)) T ∧ x = t.setInvitations T) t :=
      AdminWrite.ends_stageAll fun T _ hT => ⟨T, hT, rfl⟩
    refine ((AdminWrite.moves_stageRows staged _ t).and hends).mono fun o x hx => ?_
    obtain ⟨⟨T, rfl⟩, hx⟩ := hx
    have hundo : World.rollback t (t.setInvitations T) = t := rfl
    cases o with
    | error er => exact ⟨trivial, by rw [hundo]; exact htw, nofun⟩
    | ok _ =>
      obtain ⟨T', hT, heq⟩ := hx
      refine ⟨⟨trivial, ⟨t, T', htw, ?_, heq⟩, fun _ => hnot⟩, trivial, by rw [hundo]; exact htw,
        nofun⟩
      rw [hdb, hdbt] at hT
      exact hT.stagedRows hall

theorem bulkStage_succeeds {o : Except Exception Unit} {v : World}
    (h : Prog.Exec (ReflTransGen World.Environment)
      ((AdminWrite.bulkStage ids staged e).always fun _ => false) w o v)
    (hnot : ¬ StagingRefused ids staged e w) : o = .ok () := by
  unfold AdminWrite.bulkStage at h
  simp only [liftM_eq] at h
  obtain ⟨u, hu, h⟩ := h.always_perform
  have hdb : u.db = w.db := environments_db hu
  have hnot : ¬ StagingRefused ids staged e u := fun h => hnot ((StagingRefused.congr hdb).1 h)
  rw [AdminWrite.solo_readStaged hnot] at h
  obtain ⟨t, ht, h⟩ := h.always_transaction
  have hdbt : t.db = u.db := environments_db ht
  have hall : ∀ r ∈ u.db.invitations.select (·.id ∈ ids), (t.row r.id).isSome := fun r hr => by
    rw [World.row, hdbt, (InvitationTable.mem_select.1 hr).1]
    rfl
  obtain ⟨T, hT⟩ := AdminWrite.solo_stageRows staged hall
  rw [solo_transaction, hT] at h
  cases h
  rfl

/-- Staging is all or nothing, and refused exactly for a listed id that may not be staged. -/
theorem bulkStage_all_or_nothing (ids : List Nat) (staged : Bool) (e : Option EventId)
    (w : World) :
    (∀ o v, Prog.Exec (ReflTransGen World.Environment) (AdminWrite.bulkStage ids staged e) w o v →
      AllOrNothing ids staged w o v ∧ Traceless w v) ∧
      ∀ o v, Prog.Exec (ReflTransGen World.Environment)
        ((AdminWrite.bulkStage ids staged e).always fun _ => false) w o v →
        ((∃ er, o = .error er) ↔ StagingRefused ids staged e w) := by
  have hends : ∀ o v, Prog.Exec (ReflTransGen World.Environment)
      (AdminWrite.bulkStage ids staged e) w o v → AllOrNothing ids staged w o v ∧
        (o = .ok () → ¬ StagingRefused ids staged e w) :=
    fun o v h => h.ends bulkStage_guarantees fun _ _ h => h
  refine ⟨fun o v h => ⟨(hends o v h).1, (hends o v h).1.traceless⟩, fun o v h => ?_⟩
  constructor
  · rintro ⟨er, rfl⟩
    by_contra hnot
    cases bulkStage_succeeds h hnot
  · intro hrefused
    cases o with
    | error er => exact ⟨er, rfl⟩
    | ok _ => exact absurd hrefused ((hends _ v h.of_always).2 rfl)

section Example

def invitedWorld : World :=
  { (trace plainConfig (acceptedRun.take 1) .empty).2 with now := 5 }

/-- Staging also stamps the row. -/
theorem bulkStage_stamps :
    ((AdminWrite.bulkStage [0] true (some 7)).solo (fun _ => false) invitedWorld).1 = .ok () ∧
      ((AdminWrite.bulkStage [0] true (some 7)).solo (fun _ => false) invitedWorld).2.row 0 ≠
        (invitedWorld.row 0).map fun r => { r with status := .approvalStaged } := by
  decide

end Example

end InvitationService

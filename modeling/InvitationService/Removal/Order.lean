import InvitationService.Lifecycle.Alone
import InvitationService.Lifecycle.Removal
import InvitationService.Lifecycle.Runs

namespace InvitationService

open Resumption Query

namespace AdminWrite

variable {w : World} {e : EventId} {ids : List Nat} {i : Nat}

abbrev deleteListed (activeEventId : Option EventId) (id : Nat) : Query Unit := do
  let invitation ← ensureExists id
  assertMatchesActiveEvent invitation.eventId activeEventId
  let _ ← deleteInvitation id

theorem deleteListed_solo {r : Invitation} (hr : w.row i = some r) (he : r.eventId = e) :
    (deleteListed (some e) i).solo false w =
      (.ok (), w.setInvitations (w.db.invitations.remove (· == i))) := by
  subst he
  rw [deleteListed, Prog.solo_bind_ok (solo_ensureExists hr),
    Prog.solo_bind_ok solo_assertMatchesActiveEvent, Prog.solo_bind_ok (solo_deleteInvitation hr)]
  rfl

theorem delete_solo {r : Invitation} (hr : w.row i = some r) (he : r.eventId = e) :
    (delete i (some e)).solo (fun _ => false) w =
      (.ok (), w.setInvitations (w.db.invitations.remove (· == i))) := by
  subst he
  have hread : (do
      let invitation ← ensureExists i
      assertMatchesActiveEvent invitation.eventId (some r.eventId) : Query Unit).solo false w =
        (.ok (), w) := by
    rw [Prog.solo_bind_ok (solo_ensureExists hr)]
    exact solo_assertMatchesActiveEvent
  unfold delete
  simp only [liftM_eq]
  rw [Prog.solo_bind_ok (solo_perform.trans hread),
    Prog.solo_bind_ok (solo_perform.trans (solo_deleteInvitation hr))]
  rfl

theorem deleteEach_fails (hi : i ∈ ids) (hr : w.row i = none) :
    ∃ x t, (ids.forM (deleteListed (some e))).solo false w = (.error x, t) := by
  induction ids generalizing w with
  | nil => cases hi
  | cons j js ih =>
    rw [Prog.forM_cons, Prog.solo_bind]
    cases hrow : w.row j with
    | none =>
      rw [deleteListed, Prog.solo_bind_error (solo_ensureExists_none hrow)]
      exact ⟨_, _, rfl⟩
    | some r =>
      by_cases he : r.eventId = e
      · rw [deleteListed_solo hrow he]
        have hm : i ∈ js := (List.mem_cons.1 hi).resolve_left fun h => by
          rw [h, hrow] at hr
          cases hr
        exact ih hm (InvitationTable.remove_row_of_none hr)
      · refine ⟨.invitationValidation "Invitation does not belong to active event", w, ?_⟩
        rw [deleteListed, Prog.solo_bind_ok (solo_ensureExists hrow)]
        simp [assertMatchesActiveEvent, he]

/-- No id is listed after one of its ancestors. -/
def ChildrenFirst (t : InvitationTable) (ids : List Nat) : Prop :=
  ids.Pairwise fun i j => t.under (· == i) j = false

theorem childrenFirst_remove {t : InvitationTable} (h : ∀ j ∈ ids, t.under (· == i) j = false) :
    ChildrenFirst (t.remove (· == i)) ids ↔ ChildrenFirst t ids :=
  List.Pairwise.iff_of_mem fun {_ k} _ hk => by rw [t.under_remove (h k hk)]

theorem row_remains {t : InvitationTable} {j : Nat} (h : t.under (· == i) j = false) :
    (t.remove (· == i)).row j = t.row j := by
  rw [InvitationTable.remove_row, h]
  rfl

theorem remove_cons (t : InvitationTable) :
    (t.remove (· == i)).remove (· ∈ ids) = t.remove (· ∈ i :: ids) := by
  rw [InvitationTable.remove_remove]
  refine InvitationTable.remove_congr fun j => ?_
  rw [InvitationTable.under_congr (b := fun j => decide (j ∈ i :: ids)) fun j =>
    Bool.eq_iff_iff.2 (by simp)]

theorem remove_perm {t : InvitationTable} {l : List Nat} (hl : l.Perm ids) :
    t.remove (· ∈ l) = t.remove (· ∈ ids) :=
  InvitationTable.remove_congr fun j => by
    rw [InvitationTable.under_congr (b := fun j => decide (j ∈ ids)) fun j => by simp [hl.mem_iff]]

theorem deleteEach_solo (he : ∀ i ∈ ids, ∃ r, w.row i = some r ∧ r.eventId = e)
    (hc : ChildrenFirst w.db.invitations ids) : (ids.forM (deleteListed (some e))).solo false w =
      (.ok (), w.setInvitations (w.db.invitations.remove (· ∈ ids))) := by
  induction ids generalizing w with
  | nil =>
    rw [InvitationTable.remove_false fun _ => by simp]
    rfl
  | cons i is ih =>
    obtain ⟨r, hr, hre⟩ := he i (by simp)
    obtain ⟨hi, hc⟩ := List.pairwise_cons.1 hc
    rw [Prog.forM_cons, Prog.solo_bind_ok (deleteListed_solo hr hre), ih]
    · rw [World.setInvitations_invitations, remove_cons]
      rfl
    · intro j hj
      obtain ⟨x, hx, hxe⟩ := he j (by simp [hj])
      exact ⟨x, (row_remains (hi j hj)).trans hx, hxe⟩
    · exact (childrenFirst_remove hi).2 hc

/-- Otherwise some id is gone with an ancestor listed before it. -/
theorem deleteEach_misordered (he : ∀ i ∈ ids, ∃ r, w.row i = some r ∧ r.eventId = e)
    (hc : ¬ ChildrenFirst w.db.invitations ids) :
    ∃ x t, (ids.forM (deleteListed (some e))).solo false w = (.error x, t) := by
  induction ids generalizing w with
  | nil => exact absurd List.Pairwise.nil hc
  | cons i is ih =>
    obtain ⟨r, hr, hre⟩ := he i (by simp)
    rw [Prog.forM_cons, Prog.solo_bind_ok (deleteListed_solo hr hre)]
    by_cases hi : ∀ j ∈ is, w.db.invitations.under (· == i) j = false
    · refine ih (fun j hj => ?_) fun h => hc ?_
      · obtain ⟨x, hx, hxe⟩ := he j (by simp [hj])
        exact ⟨x, (row_remains (hi j hj)).trans hx, hxe⟩
      · exact List.pairwise_cons.2 ⟨hi, (childrenFirst_remove hi).1 h⟩
    · obtain ⟨j, hj, hu⟩ : ∃ j ∈ is, w.db.invitations.under (· == i) j = true := by simpa using hi
      refine deleteEach_fails hj ?_
      show (w.db.invitations.remove _).row j = none
      rw [InvitationTable.remove_row, if_pos hu]

theorem deleteMany_solo (hne : ids ≠ []) (he : ∀ i ∈ ids, ∃ r, w.row i = some r ∧ r.eventId = e) :
    (deleteMany ids (some e)).solo (fun _ => false) w =
        (.ok (), w.setInvitations (w.db.invitations.remove (· ∈ ids))) ↔
      ChildrenFirst w.db.invitations ids := by
  have hids : ids.isEmpty = false := by simpa using hne
  have hrun : (deleteMany ids (some e)).solo (fun _ => false) w =
      (Query.transaction (ids.forM (deleteListed (some e)))).solo (fun _ => false) w := by
    rw [deleteMany, hids]
    rfl
  rw [hrun, Query.transaction, solo_transaction]
  refine ⟨fun h => ?_, fun h => by rw [deleteEach_solo he h]⟩
  by_contra hc
  obtain ⟨x, t, hx⟩ := deleteEach_misordered he hc
  rw [hx] at h
  cases h

/-- Without a failing dependency, `deleteMany` takes a list in any order just when no listed
invitation descends from another. -/
theorem deleteMany_any_order (hne : ids ≠ []) (hn : ids.Nodup)
    (he : ∀ i ∈ ids, ∃ r, w.row i = some r ∧ r.eventId = e) :
    (∀ l, l.Perm ids → (deleteMany l (some e)).solo (fun _ => false) w =
        (.ok (), w.setInvitations (w.db.invitations.remove (· ∈ ids)))) ↔
      ∀ i ∈ ids, ∀ j ∈ ids, w.db.invitations.under (· == i) j = true → i = j := by
  have hone : ∀ l, l.Perm ids → ((deleteMany l (some e)).solo (fun _ => false) w =
      (.ok (), w.setInvitations (w.db.invitations.remove (· ∈ ids))) ↔
        ChildrenFirst w.db.invitations l) := by
    intro l hl
    rw [← remove_perm hl]
    refine deleteMany_solo (fun h => hne ?_) fun i hi => he i (hl.mem_iff.1 hi)
    rw [h] at hl
    exact hl.symm.eq_nil
  rw [forall₂_congr hone]
  constructor
  · intro h i hi j hj hu
    by_contra hij
    have hfirst := h (i :: ids.erase i) (List.perm_cons_erase hi).symm
    have hfree := (List.pairwise_cons.1 hfirst).1 j ((List.mem_erase_of_ne (Ne.symm hij)).2 hj)
    rw [hfree] at hu
    cases hu
  · intro h l hl
    refine (hl.nodup_iff.2 hn).imp_of_mem fun hi hj hij => ?_
    exact Bool.eq_false_iff.2 fun hu => hij (h _ (hl.mem_iff.1 hi) _ (hl.mem_iff.1 hj) hu)

def familyRun : List Request :=
  [⟨.createInvitation { eventId := some 7, firstName := "A", lastName := "B" } 5,
      { tenantId := some 1 }⟩,
    ⟨.createInvitation {
      eventId := some 7, firstName := "C", lastName := "D", invitedByInvitationId := some 0 } 5,
      { tenantId := some 1 }⟩,
    ⟨.createInvitation { eventId := some 7, firstName := "E", lastName := "F" } 5,
      { tenantId := some 1 }⟩]

def familyWorld : World := (trace plainConfig familyRun .empty).2

theorem familyWorld_event (h : (familyWorld.row i).any (·.eventId = 7) = true) :
    ∃ r, familyWorld.row i = some r ∧ r.eventId = 7 := by
  obtain ⟨r, hr, he⟩ := (Option.any_eq_true _ _).1 h
  exact ⟨r, hr, of_decide_eq_true he⟩

theorem deleteMany_any_order_apart :
    (deleteMany [2, 1] (some 7)).solo (fun _ => false) familyWorld =
      (.ok (), familyWorld.setInvitations (familyWorld.db.invitations.remove (· ∈ [1, 2]))) := by
  have hev : ∀ i ∈ [1, 2], (familyWorld.row i).any (·.eventId = 7) = true := by decide
  exact (deleteMany_any_order (by decide) (by decide) fun i hi => familyWorld_event (hev i hi)).2
    (by decide) [2, 1] (List.Perm.swap 1 2 [])

/-- A parent listed before its plus-one. -/
theorem deleteMany_parent_first : ¬ ∀ (w : World) (e : EventId) (ids : List Nat), ids ≠ [] →
    ids.Nodup → (∀ i ∈ ids, ∃ r, w.row i = some r ∧ r.eventId = e) →
    ∀ l, l.Perm ids → (deleteMany l (some e)).solo (fun _ => false) w =
      (.ok (), w.setInvitations (w.db.invitations.remove (· ∈ ids))) := by
  intro hall
  have hev : ∀ i ∈ [0, 1], (familyWorld.row i).any (·.eventId = 7) = true := by decide
  have h := hall familyWorld 7 [0, 1] (by decide) (by decide)
    (fun i hi => familyWorld_event (hev i hi)) [0, 1] (List.Perm.refl _)
  have hrun : ((deleteMany [0, 1] (some 7)).solo (fun _ => false) familyWorld).1 =
      .error (.invitationNotFound 1) := by decide
  rw [h] at hrun
  cases hrun

end AdminWrite
end InvitationService

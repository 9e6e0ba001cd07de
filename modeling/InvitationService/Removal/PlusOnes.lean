import InvitationService.Removal.Order

namespace InvitationService

open Resumption Query InvitationTable

variable {cfg : Config} {ctx : Context} {u : UserId} {p : Nat} {r x : Invitation}
  {rs rs' : List Invitation} {v w : World}

namespace InvitationTable

variable {t : InvitationTable} {a : Nat → Bool} {i j now : Nat} {d : InvitationUpdate}

theorem under_patch : (t.patch j d now).under a i = t.under a i := by
  rw [Bool.eq_iff_iff]
  constructor
  · refine fun h => under_induction h (fun k hk => under_of_root hk) fun k q hq hu => ?_
    exact under_of_parent (by rwa [parent_patch] at hq) hu
  · refine fun h => under_induction h (fun k hk => under_of_root hk) fun k q hq hu => ?_
    exact under_of_parent (by rwa [parent_patch]) hu

theorem remove_patch : (t.patch j d now).remove a = (t.remove a).patch j d now := by
  refine InvitationTable.ext rfl (funext fun i => ?_)
  simp only [remove_row, patch_row, under_patch]
  split <;> split <;> rfl

theorem under_false_of_lt (h : ∀ i, a i = true → j < i) : t.under a j = false :=
  Bool.eq_false_iff.2 fun hu => by
    obtain ⟨i, hi, hij⟩ := under_induction (P := fun k => ∃ i, a i = true ∧ i ≤ k) hu
      (fun k hk => ⟨k, hk, Nat.le_refl k⟩) fun k q hq hi => by
        obtain ⟨r, hr, hrp⟩ := parent_eq_some.1 hq
        exact hi.imp fun i hi => ⟨hi.1, Nat.le_of_lt (Nat.lt_of_le_of_lt hi.2 (t.parent_lt hr hrp))⟩
    exact absurd (h i hi) (Nat.not_lt.2 hij)

theorem patch_capacity (m n : Int) :
    (t.patch p (capacityUpdate m) now).patch p (capacityUpdate n) now =
      t.patch p (capacityUpdate (m + n)) now := by
  refine InvitationTable.ext rfl (funext fun i => ?_)
  simp only [patch_row]
  split
  · rw [Option.map_map]
    refine congrArg (Option.map · (t.row i)) (funext fun r => ?_)
    simp [InvitationUpdate.apply, CountUpdate.apply, Int.add_assoc]
  · rfl

end InvitationTable

def tokens (rs : List Invitation) : List Nat := rs.filterMap (·.pendingContactId)

theorem tokens_cons {α : Type} (token : Nat) (o : Option α) :
    (if token ∈ tokens rs then none else if r.pendingContactId = some token then none else o) =
      if token ∈ tokens (r :: rs) then none else o := by
  by_cases hr : r.pendingContactId = some token
  · simp [tokens, hr]
  · have : token ∈ tokens (r :: rs) ↔ token ∈ tokens rs := by
      simp [tokens, List.mem_filterMap, hr]
    simp [hr, this]

def guests (rs : List Invitation) : List UserId := rs.filterMap (·.guestProfileId)

def World.dropContact (w : World) (r : Invitation) : World :=
  match r.pendingContactId with
  | some token => w.dropPending token
  | none => w

@[simp] theorem World.dropContact_db : (w.dropContact r).db = w.db := by
  unfold dropContact
  split <;> rfl

@[simp] theorem World.dropContact_now : (w.dropContact r).now = w.now := by
  unfold dropContact
  split <;> rfl

@[simp] theorem World.dropContact_journal : (w.dropContact r).journal = w.journal := by
  unfold dropContact
  split <;> rfl

theorem World.dropContact_pendingContact (token : Nat) : (w.dropContact r).pendingContact token =
    if r.pendingContactId = some token then none else w.pendingContact token := by
  unfold dropContact
  split
  · rename_i k hk
    simp [hk, dropPending, Function.update_apply, eq_comm]
  · rename_i hk
    simp [hk]

def deletions (cfg : Config) (ctx : Context) (u : UserId) (rs : List Invitation) : List Effect :=
  ((guests rs).map fun g => .produced (.deleteGuest g) (some u) (currentTenantId cfg ctx)).reverse

theorem deletions_cons : deletions cfg ctx u (r :: rs) =
    deletions cfg ctx u rs ++ deletions cfg ctx u [r] := by
  simp only [deletions, guests, List.filterMap_cons, List.filterMap_nil]
  cases r.guestProfileId <;> simp

namespace GuestWrite

theorem solo_dropPendingContact :
    (dropPendingContact r).solo false w = (.ok (), w.dropContact r) := by
  unfold dropPendingContact World.dropContact
  cases r.pendingContactId with
  | some token => exact solo_cacheDelete
  | none => rfl

theorem solo_publishGuestDeleted : (publishGuestDeleted cfg ctx r u).solo false w =
    (.ok (), { w with journal := deletions cfg ctx u [r] ++ w.journal }) := by
  unfold publishGuestDeleted deletions guests
  cases hg : r.guestProfileId with
  | some g =>
    rw [List.filterMap_cons_some hg]
    exact solo_send
  | none =>
    rw [List.filterMap_cons_none hg]
    rfl

def withoutPlusOne (cfg : Config) (ctx : Context) (u : UserId) (p : Nat) (r : Invitation)
    (w : World) : World :=
  { (w.dropContact r).setInvitations
      ((w.db.invitations.remove (· == r.id)).patch p (capacityUpdate 1) w.now) with
    journal := deletions cfg ctx u [r] ++ w.journal }

def afterDeletion (r : Invitation) (w : World) : World :=
  (w.dropContact r).setInvitations (w.db.invitations.remove (· == r.id))

theorem deletePlusOneTransaction_solo {b : Bool} (hr : w.row r.id = some r)
    (hp : r.invitedByInvitationId = some p) (hx : w.row p = some x)
    (hb : authority cfg w.db u x = some b) :
    (deletePlusOneTransaction cfg ctx r.id u).solo false w =
      if fitsInt (x.maxInvitees + 1) then (.ok r, withoutPlusOne cfg ctx u p r w)
      else (.error .valueOutOfRange, afterDeletion r w) := by
  have hparent : parentOfPlusOne r = .ok p := by
    unfold parentOfPlusOne
    rw [hp]
    rfl
  have hgone : (w.dropContact r).row r.id = some r := by rwa [World.row, World.dropContact_db]
  have hleft : ((w.dropContact r).setInvitations
      ((w.dropContact r).db.invitations.remove (· == r.id))).row p = some x := by
    rw [World.setInvitations_row, World.dropContact_db,
      row_remove_of_lt (w.db.invitations.parent_lt hr hp)]
    exact hx
  have hupdate := solo_update (d := capacityUpdate 1) hleft
  rw [show (capacityUpdate 1).fits x = fitsInt (x.maxInvitees + 1) from rfl] at hupdate
  rw [deletePlusOneTransaction, Prog.solo_bind_ok (solo_ensureExists hr), hparent,
    Prog.solo_bind_ok (Prog.solo_ret _), Prog.solo_bind_ok (solo_ensureUserCanManage hx hb),
    Prog.solo_bind_ok solo_dropPendingContact, Prog.solo_bind_ok (solo_deleteInvitation hgone)]
  split
  · rename_i hfits
    rw [if_pos hfits] at hupdate
    rw [Prog.solo_bind_ok hupdate, Prog.solo_bind_ok solo_publishGuestDeleted]
    simp [withoutPlusOne]
  · rename_i hfits
    rw [if_neg hfits] at hupdate
    rw [Prog.solo_bind_error hupdate]
    simp [afterDeletion]

theorem deletePlusOne_solo {b : Bool} (hr : w.row r.id = some r)
    (hp : r.invitedByInvitationId = some p) (hx : w.row p = some x)
    (hb : authority cfg w.db u x = some b) (hfits : fitsInt (x.maxInvitees + 1) = true) :
    (deletePlusOne cfg ctx r.id u).solo (fun _ => false) w =
      (.ok r, withoutPlusOne cfg ctx u p r w) := by
  rw [deletePlusOne_eq, Query.transaction, solo_transaction,
    deletePlusOneTransaction_solo hr hp hx hb, if_pos hfits]

theorem deletePlusOne_refused {b : Bool} (hr : w.row r.id = some r)
    (hp : r.invitedByInvitationId = some p) (hx : w.row p = some x)
    (hb : authority cfg w.db u x = some b) (hfits : ¬ fitsInt (x.maxInvitees + 1) = true) :
    (deletePlusOne cfg ctx r.id u).solo (fun _ => false) w =
      (.error .valueOutOfRange, World.rollback w (afterDeletion r w)) := by
  rw [deletePlusOne_eq, Query.transaction, solo_transaction,
    deletePlusOneTransaction_solo hr hp hx hb, if_neg hfits]

structure Emptied (p : Nat) (rs : List Invitation) (v w : World) : Prop where
  invitations : w.db.invitations.patch p (capacityUpdate 0) v.now =
    (v.db.invitations.remove (· ∈ rs.map (·.id))).patch p (capacityUpdate rs.length) v.now
  pendingContact : ∀ token,
    w.pendingContact token = if token ∈ tokens rs then none else v.pendingContact token

theorem Emptied.nil : Emptied p [] w w where
  invitations := by
    rw [remove_false fun _ => by simp]
    rfl
  pendingContact token := by simp [tokens]

theorem Emptied.cons (h : Emptied p rs (withoutPlusOne cfg ctx u p r v) w) :
    Emptied p (r :: rs) v w where
  invitations := by
    have hinv : (withoutPlusOne cfg ctx u p r v).db.invitations =
        (v.db.invitations.remove (· == r.id)).patch p (capacityUpdate 1) v.now := rfl
    have hnow : (withoutPlusOne cfg ctx u p r v).now = v.now := by simp [withoutPlusOne]
    rw [← hnow, h.invitations, hinv, hnow, remove_patch, AdminWrite.remove_cons, patch_capacity]
    simp [Int.add_comm]
  pendingContact token := by
    have hone : (withoutPlusOne cfg ctx u p r v).pendingContact token =
        if r.pendingContactId = some token then none else v.pendingContact token :=
      World.dropContact_pendingContact token
    rw [h.pendingContact, hone, tokens_cons]

def deleteEach (cfg : Config) (ctx : Context) (u : UserId) (ids : List Nat) : Program PUnit :=
  ids.forM fun i => do let _ ← deletePlusOne cfg ctx i u

theorem sibling_free {t : InvitationTable} (hr : t.row r.id = some r)
    (hp : r.invitedByInvitationId = some p) {y : Invitation} (hy : t.row y.id = some y)
    (hyp : y.invitedByInvitationId = some p) (hne : y.id ≠ r.id) :
    t.under (· == r.id) y.id = false := Bool.eq_false_iff.2 fun hu => by
  have hlt : p < r.id := t.parent_lt hr hp
  rcases under_iff.1 hu with h | ⟨q, hq, hu⟩
  · exact hne (beq_iff_eq.1 h)
  · obtain rfl : q = p := Option.some.inj (hq.symm.trans (parent_eq_some.2 ⟨y, hy, hyp⟩))
    have := le_of_under hu
    omega

theorem sibling_stays (hr : w.row r.id = some r) (hp : r.invitedByInvitationId = some p)
    {y : Invitation} (hy : w.row y.id = some y) (hyp : y.invitedByInvitationId = some p)
    (hne : y.id ≠ r.id) : (withoutPlusOne cfg ctx u p r w).row y.id = some y := by
  have hyp' : y.id ≠ p := Nat.ne_of_gt (w.db.invitations.parent_lt hy hyp)
  show ((w.db.invitations.remove _).patch p _ _).row y.id = _
  rw [patch_row_of_ne hyp', AdminWrite.row_remains (sibling_free hr hp hy hyp hne)]
  exact hy

theorem ready_after (hn : ((r :: rs).map (·.id)).Nodup)
    (hrs : ∀ y ∈ r :: rs, w.row y.id = some y ∧ y.invitedByInvitationId = some p)
    (hx : w.row p = some x) :
    (∀ y ∈ rs, (withoutPlusOne cfg ctx u p r w).row y.id = some y ∧
      y.invitedByInvitationId = some p) ∧
    (withoutPlusOne cfg ctx u p r w).row p = some ((capacityUpdate 1).apply w.now x) ∧
    ∀ u', authority cfg (withoutPlusOne cfg ctx u p r w).db u' ((capacityUpdate 1).apply w.now x) =
      authority cfg w.db u' x := by
  obtain ⟨hr, hp⟩ := hrs r (by simp)
  obtain ⟨hnr, -⟩ := List.nodup_cons.1 hn
  refine ⟨fun y hy => ?_, ?_, fun u' => ?_⟩
  · obtain ⟨hyr, hyp⟩ := hrs y (List.mem_cons_of_mem _ hy)
    refine ⟨sibling_stays hr hp hyr hyp fun he => hnr ?_, hyp⟩
    exact List.mem_map.2 ⟨y, hy, he⟩
  · show ((w.db.invitations.remove _).patch p _ _).row p = _
    rw [patch_row_self, row_remove_of_lt (w.db.invitations.parent_lt hr hp)]
    exact congrArg (Option.map _) hx
  · have hdb : (withoutPlusOne cfg ctx u p r w).db = { w.db with
        invitations := (withoutPlusOne cfg ctx u p r w).db.invitations } := by
      simp [withoutPlusOne, World.setInvitations]
    rw [hdb]
    rfl

theorem capacity_raised (now : Nat) (x : Invitation) :
    ((capacityUpdate 1).apply now x).maxInvitees = x.maxInvitees + 1 := rfl

theorem deleteEach_solo {b : Bool} (hn : (rs.map (·.id)).Nodup)
    (hrs : ∀ r ∈ rs, w.row r.id = some r ∧ r.invitedByInvitationId = some p)
    (hx : w.row p = some x) (hb : authority cfg w.db u x = some b)
    (hcol : fitsInt x.maxInvitees = true) (hfits : fitsInt (x.maxInvitees + rs.length) = true) :
    ∃ v, (deleteEach cfg ctx u (rs.map (·.id))).solo (fun _ => false) w = (.ok (), v) ∧
      Emptied p rs w v ∧ v.journal = deletions cfg ctx u rs ++ w.journal := by
  induction rs generalizing w x with
  | nil => exact ⟨w, rfl, .nil, rfl⟩
  | cons r rs ih =>
    obtain ⟨hr, hp⟩ := hrs r (by simp)
    obtain ⟨hrs', hrow, hauth⟩ := ready_after hn hrs hx
    rw [fitsInt_iff, List.length_cons] at hfits
    rw [fitsInt_iff] at hcol
    have hone : fitsInt (x.maxInvitees + 1) = true := fitsInt_iff.2 (by omega)
    obtain ⟨v, hv, hemp, hjournal⟩ := ih (List.nodup_cons.1 hn).2 hrs' hrow
      ((hauth u).trans hb) hone (fitsInt_iff.2 (by rw [capacity_raised]; omega))
    refine ⟨v, ?_, hemp.cons, ?_⟩
    · rw [deleteEach, List.map_cons, Prog.forM_cons, Prog.solo_bind_ok]
      · exact hv
      · rw [Prog.solo_bind_ok (deletePlusOne_solo hr hp hx hb hone)]
        rfl
    · rw [hjournal, deletions_cons, List.append_assoc]
      rfl

theorem deleteEach_refused {b : Bool} (hn : (rs.map (·.id)).Nodup)
    (hrs : ∀ r ∈ rs, w.row r.id = some r ∧ r.invitedByInvitationId = some p)
    (hx : w.row p = some x) (hb : authority cfg w.db u x = some b)
    (hcol : fitsInt x.maxInvitees = true) (hfits : ¬ fitsInt (x.maxInvitees + rs.length) = true) :
    ∃ e v, (deleteEach cfg ctx u (rs.map (·.id))).solo (fun _ => false) w = (.error e, v) := by
  induction rs generalizing w x with
  | nil => exact absurd (by simpa using hcol) hfits
  | cons r rs ih =>
    obtain ⟨hr, hp⟩ := hrs r (by simp)
    rw [deleteEach, List.map_cons, Prog.forM_cons]
    by_cases hone : fitsInt (x.maxInvitees + 1) = true
    · obtain ⟨hrs', hrow, hauth⟩ := ready_after hn hrs hx
      obtain ⟨e, v, hv⟩ := ih (List.nodup_cons.1 hn).2 hrs' hrow ((hauth u).trans hb) hone
        (by rwa [capacity_raised, Int.add_assoc, Int.add_comm 1, ← Int.natCast_succ])
      refine ⟨e, v, ?_⟩
      rw [Prog.solo_bind_ok]
      · exact hv
      · rw [Prog.solo_bind_ok (deletePlusOne_solo hr hp hx hb hone)]
        rfl
    · exact ⟨_, _, Prog.solo_bind_error (Prog.solo_bind_error
        (deletePlusOne_refused hr hp hx hb hone))⟩

theorem deleteChild_solo (hr : w.row r.id = some r) : (deleteChild r).solo false w =
    (.ok r, (w.dropContact r).setInvitations (w.db.invitations.remove (· == r.id))) := by
  have hrow : (w.dropContact r).row r.id = some r := by rwa [World.row, World.dropContact_db]
  rw [deleteChild, Prog.solo_bind_ok solo_dropPendingContact, solo_deleteInvitation hrow,
    World.dropContact_db]

structure Swept (rs : List Invitation) (v w : World) : Prop where
  db : w.db = { v.db with invitations := v.db.invitations.remove (· ∈ rs.map (·.id)) }
  pendingContact : ∀ token,
    w.pendingContact token = if token ∈ tokens rs then none else v.pendingContact token
  journal : w.journal = v.journal
  now : w.now = v.now

theorem deleteChildren_solo (hn : (rs.map (·.id)).Nodup)
    (hrs : ∀ r ∈ rs, w.row r.id = some r ∧ r.invitedByInvitationId = some p) :
    ∃ v, (rs.mapM' deleteChild).solo false w = (.ok rs, v) ∧ Swept rs w v := by
  induction rs generalizing w with
  | nil =>
    refine ⟨w, rfl, ?_, fun token => by simp [tokens], rfl, rfl⟩
    rw [remove_false fun _ => by simp]
  | cons r rs ih =>
    obtain ⟨hr, hp⟩ := hrs r (by simp)
    obtain ⟨hnr, hn⟩ := List.nodup_cons.1 hn
    obtain ⟨v, hv, hc⟩ := ih (w := (w.dropContact r).setInvitations
      (w.db.invitations.remove (· == r.id))) hn fun y hy => by
        obtain ⟨hyr, hyp⟩ := hrs y (List.mem_cons_of_mem _ hy)
        have hne : y.id ≠ r.id := fun he => hnr (List.mem_map.2 ⟨y, hy, he⟩)
        exact ⟨(AdminWrite.row_remains (sibling_free hr hp hyr hyp hne)).trans hyr, hyp⟩
    refine ⟨v, ?_, ?_, fun token => ?_, ?_, ?_⟩
    · rw [Prog.mapM'_cons, Prog.solo_bind_ok (deleteChild_solo hr), Prog.solo_bind_ok hv]
      rfl
    · rw [hc.db]
      simp only [World.setInvitations, World.dropContact_db, AdminWrite.remove_cons, List.map_cons]
    · rw [hc.pendingContact, World.setInvitations_pendingContact, World.dropContact_pendingContact,
        tokens_cons]
    · simp [hc.journal]
    · simp [hc.now]

def deletionList (cfg : Config) (ctx : Context) (u : UserId) (rs : List Invitation) :
    List Effect :=
  if (guests rs).isEmpty then []
  else [.produced (.deleteGuestList (guests rs)) (some u) (currentTenantId cfg ctx)]

/-- The rows `deleteAllPlusOnes` deletes: the plus-ones of `p`, as far as they are of its event. -/
def plusOnesOf (t : InvitationTable) (p : Nat) (x : Invitation) : List Invitation :=
  t.select fun r => r.invitedByInvitationId = some p && r.eventId = x.eventId

abbrev refundAll (cfg : Config) (ctx : Context) (p : Nat) (u : UserId) (rs : List Invitation) :
    Query (List Invitation) := do
  let _ ← updateInvitation p { maxInvitees := some (.increment rs.length) }
  let plusOneIds := rs.filterMap (·.guestProfileId)
  if !plusOneIds.isEmpty then send cfg ctx (.deleteGuestList plusOneIds) (some u)
  return rs

theorem deleteAllTransaction_swept {b : Bool} (hx : w.row p = some x)
    (hb : authority cfg w.db u x = some b) :
    ∃ v, v.row p = some x ∧ Swept (plusOnesOf w.db.invitations p x) w v ∧
      (deleteAllTransaction cfg ctx p u).solo false w =
        (refundAll cfg ctx p u (plusOnesOf w.db.invitations p x)).solo false v := by
  generalize hrs : plusOnesOf w.db.invitations p x = rs
  have hn : (rs.map (·.id)).Nodup := by
    rw [← hrs, plusOnesOf, select_ids]
    exact nodup_ids ..
  have hmem : ∀ r ∈ rs, w.row r.id = some r ∧ r.invitedByInvitationId = some p := by
    intro r hr
    rw [← hrs] at hr
    obtain ⟨hrow, hq⟩ := mem_select.1 hr
    exact ⟨hrow, of_decide_eq_true (Bool.and_eq_true_iff.1 hq).1⟩
  obtain ⟨v, hv, hs⟩ := deleteChildren_solo hn hmem
  have hxv : v.row p = some x := by
    have hfree : w.db.invitations.under (· ∈ rs.map (·.id)) p = false :=
      under_false_of_lt fun i hi => by
        obtain ⟨r, hr, rfl⟩ := List.mem_map.1 (of_decide_eq_true hi)
        exact w.db.invitations.parent_lt (hmem r hr).1 (hmem r hr).2
    rw [World.row, hs.db, remove_row, hfree]
    exact hx
  refine ⟨v, hxv, hs, ?_⟩
  rw [deleteAllTransaction, Prog.solo_bind_ok (solo_ensureExists hx),
    Prog.solo_bind_ok (solo_ensureUserCanManage hx hb),
    Prog.solo_bind_ok solo_findManyInvitations]
  rw [show w.db.invitations.select _ = rs from hrs, Prog.solo_bind_ok hv]

theorem deleteAllTransaction_solo {b : Bool} (hx : w.row p = some x)
    (hb : authority cfg w.db u x = some b)
    (hfits : fitsInt (x.maxInvitees + (plusOnesOf w.db.invitations p x).length) = true) :
    ∃ v, (deleteAllTransaction cfg ctx p u).solo false w =
        (.ok (plusOnesOf w.db.invitations p x), v) ∧
      Emptied p (plusOnesOf w.db.invitations p x) w v ∧
      v.journal = deletionList cfg ctx u (plusOnesOf w.db.invitations p x) ++ w.journal := by
  obtain ⟨v, hxv, hs, hsolo⟩ := @deleteAllTransaction_swept cfg ctx u p x w b hx hb
  generalize plusOnesOf w.db.invitations p x = rs at hs hsolo hfits ⊢
  have hupdate := solo_update (d := capacityUpdate rs.length) hxv
  rw [if_pos (show (capacityUpdate rs.length).fits x = true from hfits)] at hupdate
  refine ⟨{ v.setInvitations (v.db.invitations.patch p (capacityUpdate rs.length) v.now) with
    journal := deletionList cfg ctx u rs ++ w.journal }, ?_, ⟨?_, hs.pendingContact⟩, rfl⟩
  · rw [hsolo, refundAll, Prog.solo_bind_ok hupdate]
    rw [show rs.filterMap (·.guestProfileId) = guests rs from rfl, ← hs.journal]
    dsimp only [deletionList]
    cases (guests rs).isEmpty with
    | true => rfl
    | false => exact Prog.solo_bind_ok solo_send
  · rw [hs.now, hs.db]
    show ((w.db.invitations.remove _).patch p _ _).patch p _ _ = _
    rw [patch_capacity]
    simp

theorem deleteAllTransaction_refused {b : Bool} (hx : w.row p = some x)
    (hb : authority cfg w.db u x = some b)
    (hfits : ¬ fitsInt (x.maxInvitees + (plusOnesOf w.db.invitations p x).length) = true) :
    ∃ v, (deleteAllTransaction cfg ctx p u).solo false w = (.error .valueOutOfRange, v) ∧
      Swept (plusOnesOf w.db.invitations p x) w v := by
  obtain ⟨v, hxv, hs, hsolo⟩ := @deleteAllTransaction_swept cfg ctx u p x w b hx hb
  generalize plusOnesOf w.db.invitations p x = rs at hs hsolo hfits ⊢
  have hupdate := solo_update (d := capacityUpdate rs.length) hxv
  rw [if_neg (show ¬ (capacityUpdate rs.length).fits x = true from hfits)] at hupdate
  exact ⟨v, by rw [hsolo, refundAll, Prog.solo_bind_error hupdate], hs⟩

theorem deleteAllPlusOnes_solo {b : Bool} (hx : w.row p = some x)
    (hb : authority cfg w.db u x = some b)
    (hfits : fitsInt (x.maxInvitees + (plusOnesOf w.db.invitations p x).length) = true) :
    ∃ v, (deleteAllPlusOnes cfg ctx p u).solo (fun _ => false) w =
        (.ok (plusOnesOf w.db.invitations p x), v) ∧
      Emptied p (plusOnesOf w.db.invitations p x) w v ∧
      v.journal = deletionList cfg ctx u (plusOnesOf w.db.invitations p x) ++ w.journal := by
  obtain ⟨v, hv, h⟩ := deleteAllTransaction_solo hx hb hfits
  refine ⟨v, ?_, h⟩
  rw [deleteAllPlusOnes_eq, Query.transaction, solo_transaction, hv]

theorem deleteAllPlusOnes_refused {b : Bool} (hx : w.row p = some x)
    (hb : authority cfg w.db u x = some b)
    (hfits : ¬ fitsInt (x.maxInvitees + (plusOnesOf w.db.invitations p x).length) = true) :
    ∃ v, (deleteAllPlusOnes cfg ctx p u).solo (fun _ => false) w = (.error .valueOutOfRange, v) ∧
      v.db = w.db := by
  obtain ⟨v, hv, -⟩ := @deleteAllTransaction_refused cfg ctx u p x w b hx hb hfits
  exact ⟨World.rollback w v, by rw [deleteAllPlusOnes_eq, Query.transaction, solo_transaction, hv],
    rfl⟩

theorem rows_of_ids {t : InvitationTable} {q : Invitation → Bool} {l : List Nat}
    (hl : l.Perm (t.ids q)) : (l.filterMap t.row).Perm (t.select q) ∧
      (l.filterMap t.row).map (·.id) = l := by
  have hrow : ∀ i ∈ l, (t.row i).map (·.id) = some i := fun i hi => by
    obtain ⟨r, hr, -⟩ := mem_ids.1 (hl.mem_iff.1 hi)
    rw [hr, Option.map_some, t.id_eq hr]
  constructor
  · refine (hl.filterMap t.row).trans (.of_eq ?_)
    rw [← select_ids, List.filterMap_map, List.filterMap_congr (g := some), List.filterMap_some]
    exact fun r hr => (mem_select.1 hr).1
  · rw [List.map_filterMap, List.filterMap_congr (g := some) hrow, List.filterMap_some]

theorem plusOnesOf_eq {t : InvitationTable}
    (he : ∀ i r, t.row i = some r → r.invitedByInvitationId = some p → r.eventId = x.eventId) :
    plusOnesOf t p x = t.select (·.invitedByInvitationId = some p) := by
  refine List.filter_congr fun r hr => ?_
  obtain ⟨i, -, hi⟩ := List.mem_filterMap.1 hr
  by_cases hp : r.invitedByInvitationId = some p
  · simp [hp, he i r hi hp]
  · simp [hp]

end GuestWrite

def Invitation.unstamped (r : Invitation) : Invitation := { r with updatedAt := none }

theorem unstamped_patch {t : InvitationTable} {now : Nat} (i : Nat) :
    ((t.patch p (capacityUpdate 0) now).row i).map Invitation.unstamped =
      (t.row i).map Invitation.unstamped := by
  rw [patch_row]
  split
  · rw [Option.map_map]
    refine congrArg (Option.map · (t.row i)) (funext fun r => ?_)
    simp [Invitation.unstamped, InvitationUpdate.apply, CountUpdate.apply]
  · rfl

open GuestWrite

/-- Without a failing dependency, `deleteAllPlusOnes` leaves what `deletePlusOne` leaves for every
plus-one in any order, and its one message is about the guests of theirs, if the counter of the
parent has room for their slots.  If not, neither goes through. -/
theorem deleteAllPlusOnes_each {b : Bool} {l : List Nat} (hx : w.row p = some x)
    (hb : authority cfg w.db u x = some b)
    (he : ∀ i r, w.row i = some r → r.invitedByInvitationId = some p → r.eventId = x.eventId)
    (hl : l.Perm (w.db.invitations.ids (·.invitedByInvitationId = some p)))
    (hcol : fitsInt x.maxInvitees = true) :
    (fitsInt (x.maxInvitees + l.length) = true → ∃ rows v v' gs gs',
      (deleteAllPlusOnes cfg ctx p u).solo (fun _ => false) w = (.ok rows, v) ∧
      (deleteEach cfg ctx u l).solo (fun _ => false) w = (.ok (), v') ∧
      (∀ i, (v.row i).map Invitation.unstamped = (v'.row i).map Invitation.unstamped) ∧
      v.pendingContact = v'.pendingContact ∧ gs.Perm gs' ∧
      v.journal = (if gs.isEmpty then []
        else [.produced (.deleteGuestList gs) (some u) (currentTenantId cfg ctx)]) ++ w.journal ∧
      v'.journal = (gs'.map fun g =>
        .produced (.deleteGuest g) (some u) (currentTenantId cfg ctx)).reverse ++ w.journal) ∧
    (fitsInt (x.maxInvitees + l.length) = false →
      (∃ e v, (deleteAllPlusOnes cfg ctx p u).solo (fun _ => false) w = (.error e, v) ∧
        v.db = w.db) ∧
      ∃ e v, (deleteEach cfg ctx u l).solo (fun _ => false) w = (.error e, v)) := by
  obtain ⟨hperm, hids⟩ := rows_of_ids hl
  have hlen' : (l.filterMap w.db.invitations.row).length = l.length := by
    simpa using congrArg List.length hids
  have hlen : l.length = (plusOnesOf w.db.invitations p x).length := by
    rw [plusOnesOf_eq he, ← hperm.length_eq, hlen']
  have hn : ((l.filterMap w.db.invitations.row).map (·.id)).Nodup := by
    rw [hids]
    exact hl.nodup_iff.2 (nodup_ids ..)
  have hmem : ∀ r ∈ l.filterMap w.db.invitations.row,
      w.row r.id = some r ∧ r.invitedByInvitationId = some p := by
    intro r hr
    rw [hperm.mem_iff] at hr
    exact (mem_select.1 hr).imp_right of_decide_eq_true
  constructor
  · intro hfits
    obtain ⟨v, hv, hemp, hjournal⟩ :=
      @deleteAllPlusOnes_solo cfg ctx u p x w b hx hb (hlen ▸ hfits)
    obtain ⟨v', hv', hemp', hjournal'⟩ :=
      @deleteEach_solo cfg ctx u p x _ w b hn hmem hx hb hcol (hlen'.symm ▸ hfits)
    rw [hids] at hv'
    rw [plusOnesOf_eq he] at hv hemp hjournal
    refine ⟨_, v, v', guests _, guests _, hv, hv', fun i => ?_, ?_,
      (hperm.filterMap _).symm, hjournal, hjournal'⟩
    · -- the stamps of the parent differ: a last patch of nothing makes the tables equal
      have htable : v.db.invitations.patch p (capacityUpdate 0) w.now =
          v'.db.invitations.patch p (capacityUpdate 0) w.now := by
        rw [hemp.invitations, hemp'.invitations, hperm.length_eq,
          AdminWrite.remove_perm (hperm.map (·.id))]
      rw [World.row, World.row, ← unstamped_patch, htable, unstamped_patch]
    · funext token
      rw [hemp.pendingContact, hemp'.pendingContact]
      exact if_congr (hperm.filterMap _).mem_iff.symm rfl rfl
  · intro hfits
    rw [← Bool.not_eq_true] at hfits
    obtain ⟨v, hv, hdb⟩ := @deleteAllPlusOnes_refused cfg ctx u p x w b hx hb (hlen ▸ hfits)
    obtain ⟨e, v', hv'⟩ :=
      @deleteEach_refused cfg ctx u p x _ w b hn hmem hx hb hcol (hlen'.symm ▸ hfits)
    rw [hids] at hv'
    exact ⟨⟨_, v, hv, hdb⟩, e, v', hv'⟩

def siblingsRun : List Request :=
  [⟨.createInvitation { eventId := some 7, firstName := "A", lastName := "B" } 5,
      { tenantId := some 1 }⟩,
    ⟨.createInvitation {
      eventId := some 7, firstName := "C", lastName := "D", invitedByInvitationId := some 0 } 5,
      { tenantId := some 1 }⟩,
    ⟨.createInvitation {
      eventId := some 7, firstName := "E", lastName := "F", invitedByInvitationId := some 0 } 5,
      { tenantId := some 1 }⟩,
    ⟨.addGuestId 1 9, {}⟩]

def siblingsWorld : World := (trace plainConfig siblingsRun .empty).2

theorem deleteAllPlusOnes_each_siblings : ∃ rows v v' gs gs',
    (deleteAllPlusOnes plainConfig {} 0 5).solo (fun _ => false) siblingsWorld = (.ok rows, v) ∧
    (deleteEach plainConfig {} 5 [2, 1]).solo (fun _ => false) siblingsWorld = (.ok (), v') ∧
    (∀ i, (v.row i).map Invitation.unstamped = (v'.row i).map Invitation.unstamped) ∧
    v.pendingContact = v'.pendingContact ∧ gs.Perm gs' ∧
    v.journal = (if gs.isEmpty then []
      else [.produced (.deleteGuestList gs) (some 5) 0]) ++ siblingsWorld.journal ∧
    v'.journal = (gs'.map fun g =>
      .produced (.deleteGuest g) (some 5) 0).reverse ++ siblingsWorld.journal := by
  have hrow : (siblingsWorld.row 0).any (fun x => x.eventId = 7 && x.maxInvitees = 0 &&
      authority plainConfig siblingsWorld.db 5 x = some false) = true := by decide
  have hevent : ∀ i < 3, (siblingsWorld.row i).all (·.eventId = 7) = true := by decide
  obtain ⟨x, hx, hok⟩ := (Option.any_eq_true _ _).1 hrow
  simp only [Bool.and_eq_true, decide_eq_true_eq] at hok
  obtain ⟨⟨he, hm⟩, hb⟩ := hok
  refine (deleteAllPlusOnes_each (l := [2, 1]) hx hb (fun i r hr _ => ?_) (by decide)
    (by rw [hm]; rfl)).1 (by rw [hm]; rfl)
  have hi : i < 3 := siblingsWorld.db.invitations.id_lt hr
  have h := hevent i hi
  rw [hr] at h
  exact (of_decide_eq_true h).trans he.symm

def brimWorld : World :=
  (trace plainConfig (siblingsRun.set 0 ⟨.createInvitation {
    eventId := some 7, firstName := "A", lastName := "B", maxInvitees := some 2147483646 } 5,
    { tenantId := some 1 }⟩) .empty).2

/-- All at once they stay; one after the other, the first is gone when the second is refused. -/
theorem deleteAllPlusOnes_not_each :
    (∃ x, brimWorld.row 0 = some x ∧ authority plainConfig brimWorld.db 5 x = some false ∧
      ∀ i r, brimWorld.row i = some r → r.invitedByInvitationId = some 0 → r.eventId = x.eventId) ∧
    [1, 2].Perm (brimWorld.db.invitations.ids (·.invitedByInvitationId = some 0)) ∧
    ¬ ∀ i, (((deleteAllPlusOnes plainConfig {} 0 5).solo (fun _ => false) brimWorld).2.row i).map
        Invitation.unstamped =
      (((deleteEach plainConfig {} 5 [1, 2]).solo (fun _ => false) brimWorld).2.row i).map
        Invitation.unstamped := by
  have hrow : (brimWorld.row 0).any (fun x =>
      x.eventId = 7 && authority plainConfig brimWorld.db 5 x = some false) = true := by decide
  have hevent : ∀ i < 3, (brimWorld.row i).all (·.eventId = 7) = true := by decide
  obtain ⟨x, hx, hok⟩ := (Option.any_eq_true _ _).1 hrow
  obtain ⟨he, hb⟩ := Bool.and_eq_true_iff.1 hok
  refine ⟨⟨x, hx, of_decide_eq_true hb, fun i r hr _ => ?_⟩, by decide, fun hall => ?_⟩
  · have hi : i < 3 := brimWorld.db.invitations.id_lt hr
    have h := hevent i hi
    rw [hr] at h
    exact (of_decide_eq_true h).trans (of_decide_eq_true he).symm
  · have hkept : (((deleteAllPlusOnes plainConfig {} 0 5).solo (fun _ => false)
      brimWorld).2.row 1).isSome = true := by decide
    have hgone : (((deleteEach plainConfig {} 5 [1, 2]).solo (fun _ => false)
      brimWorld).2.row 1).isNone = true := by decide
    have h := congrArg Option.isSome (hall 1)
    rw [Option.isSome_map, Option.isSome_map, hkept, Option.isNone_iff_eq_none.1 hgone] at h
    cases h

end InvitationService

import InvitationService.Removal.Order
import InvitationService.Lifecycle.Cache

open Relation (ReflTransGen)

namespace InvitationService

open Resumption Query AdminWrite

variable {cfg : Config} {ctx : Context} {p c i : Nat} {r : Invitation} {u v w : World}

def Wanes (v w : World) : Prop := ∀ i, w.row i = none ∨ w.row i = v.row i

namespace Wanes

theorem of_eq (h : w.db.invitations = v.db.invitations) : Wanes v w := fun i => .inr (by
  rw [World.row, h])

theorem refl (w : World) : Wanes w w := of_eq rfl

theorem trans (u v w : World) (h : Wanes u v) (k : Wanes v w) : Wanes u w := fun i => by
  rcases k i with k | k
  · exact .inl k
  · rw [k]
    exact h i

end Wanes

theorem absorbs_wanes : Absorbs Wanes := ⟨Wanes.trans, fun _ _ h => .of_eq h.invitations⟩

theorem wanes_deleteInvitation : (deleteInvitation i).Moves Wanes :=
  Block.moves_call Wanes.refl fun w => by
    split
    · exact fun _ => InvitationTable.remove_row_eq
    · exact .refl w

theorem wanes_deleteManyInvitations {q : Invitation → Bool} :
    (deleteManyInvitations q).Moves Wanes :=
  Block.moves_call Wanes.refl fun _ _ => InvitationTable.remove_row_eq

def lostPlusOnes (p : Nat) (v w : World) : Finset Nat :=
  (v.db.invitations.children p).filter fun i => (w.row i).isNone = true

/-- The allowance of `p` has grown by the plus-ones it lost. -/
def Refunds (p : Nat) (v w : World) : Prop :=
  (w.row p).map (·.maxInvitees) =
    (v.row p).map fun r => r.maxInvitees + ((lostPlusOnes p v w).card : Int)

/-- The ways to remove the row `c`, read as `r`, besides `deletePlusOne`. -/
def Call.RemovesRow (q : Call) (c : Nat) (r : Invitation) : Prop :=
  match q with
  | .removeInvitation i _ => i = c
  | .removeInvitations ids _ => c ∈ ids
  | .deleteUserInvitations u => r.guestProfileId = some u
  | _ => False

theorem Call.RemovesRow.wanes {q : Request} (hq : q.call.RemovesRow c r) :
    (execute cfg q).Drifts Rests Wanes := by
  obtain ⟨q, ctx⟩ := q
  cases q with
  | removeInvitation i e => exact delete_drifts absorbs_wanes wanes_deleteInvitation
  | removeInvitations ids e =>
    exact deleteMany_drifts absorbs_wanes (fun _ => wanes_deleteInvitation) fun _ _ _ => .of_eq rfl
  | deleteUserInvitations u =>
    exact InvitationWrite.deleteByGuestId_drifts absorbs_wanes fun _ => wanes_deleteManyInvitations
  | _ => exact hq.elim

theorem Wanes.not_refunds (h : Wanes v w) (hr : v.row c = some r)
    (hp : r.invitedByInvitationId = some p) (hc : w.row c = none) (hw : (w.row p).isSome = true) :
    ¬ Refunds p v w := by
  intro href
  obtain ⟨x, hx⟩ := Option.isSome_iff_exists.1 hw
  have hv : v.row p = some x := by
    rcases h p with hn | he
    · rw [hx] at hn
      cases hn
    · rw [← he, hx]
  have hlost : 0 < (lostPlusOnes p v w).card := Finset.card_pos.2 ⟨c, by
    simp [lostPlusOnes, InvitationTable.mem_children, hc, hr, hp]⟩
  rw [Refunds, hx, hv, Option.map_some, Option.map_some, Option.some.injEq] at href
  omega

theorem refunds_deletePlusOne (hr : v.row c = some r) (hp : r.invitedByInvitationId = some p)
    {now : Nat} (hw : w.db.invitations =
      (v.db.invitations.remove (· == c)).patch p (capacityUpdate 1) now) : Refunds p v w := by
  have hlt : p < c := v.db.invitations.parent_lt hr hp
  have hrow : ∀ i, w.row i = if i = p
      then ((v.db.invitations.remove (· == c)).row i).map ((capacityUpdate 1).apply now)
      else (v.db.invitations.remove (· == c)).row i := fun i => by
    rw [World.row, hw, InvitationTable.patch_row]
  have hlost : lostPlusOnes p v w = {c} := by
    ext i
    simp only [lostPlusOnes, Finset.mem_filter, InvitationTable.mem_children,
      Option.isNone_iff_eq_none,
      Finset.mem_singleton]
    constructor
    · rintro ⟨⟨x, hx, hxp⟩, hn⟩
      have hip : i ≠ p := fun h => Nat.lt_irrefl _ (h ▸ v.db.invitations.parent_lt hx hxp)
      rw [hrow, if_neg hip, InvitationTable.remove_row] at hn
      by_contra hic
      rcases InvitationTable.under_iff.1 (by_contra fun hu => by
        rw [if_neg hu, hx] at hn
        cases hn) with h | ⟨q, hq, hu⟩
      · exact hic (beq_iff_eq.1 h)
      · obtain rfl : q = p := Option.some.inj <| hq.symm.trans <|
          InvitationTable.parent_eq_some.2 ⟨x, hx, hxp⟩
        have := InvitationTable.le_of_under hu
        omega
    · rintro rfl
      refine ⟨⟨r, hr, hp⟩, ?_⟩
      rw [hrow, if_neg (Nat.ne_of_gt hlt), InvitationTable.remove_row,
        if_pos (InvitationTable.under_of_root (by simp))]
  obtain ⟨x, hx⟩ := Option.isSome_iff_exists.1 (v.db.invitations.parent_row hr hp)
  rw [Refunds, hlost, hrow, if_pos rfl, InvitationTable.row_remove_of_lt hlt, World.row, hx]
  simp [capacityUpdate, InvitationUpdate.apply, CountUpdate.apply]

/-- The call ends in `o`, with time and expiry in between. -/
abbrev Outcome (cfg : Config) (q : Request) (w : World) (o : Except Exception Unit)
    (v : World) : Prop :=
  Prog.Exec (ReflTransGen (service cfg).env) ((service cfg).exec q) ((service cfg).arrive q w) o v

theorem deletePlusOne_refunds {user : UserId} (hr : w.row c = some r)
    (hp : r.invitedByInvitationId = some p)
    (hex : Outcome cfg ⟨.removePlusOneInvitation c user, ctx⟩ w (.ok ()) v) : Refunds p w v := by
  have hg : (execute cfg ⟨.removePlusOneInvitation c user, ctx⟩).Guarantees
      (fun s t => t.db = s.db) (fun _ _ => True) (fun o t => o = .ok () → Refunds p w t)
      ((service cfg).arrive ⟨.removePlusOneInvitation c user, ctx⟩ w) := by
    show (GuestWrite.deletePlusOne cfg ctx c user >>= _).Guarantees _ _ _ _
    rw [GuestWrite.deletePlusOne_eq]
    refine Prog.Guarantees.bind <| (guarantees_transaction_of_ends (Q := fun o t => ∀ x,
      o = .ok x → Refunds p w t) (fun t ht => GuestWrite.ends_deletePlusOneTransaction
        fun r' p' x u hr' hp' hu _ _ => ?_) fun _ _ _ _ _ he => ?_).weaken fun o t ht => ?_
    · have hrow : t.row c = w.row c := by
        rw [World.row, ht]
        rfl
      obtain rfl : r' = r := Option.some.inj (hr'.symm.trans (hrow.trans hr))
      obtain rfl : p' = p := Option.some.inj (hp'.symm.trans hp)
      have htables : u.db.invitations =
          (w.db.invitations.remove (· == c)).patch p' (capacityUpdate 1) t.now := by
        rw [hu, ht]
        rfl
      exact refunds_deletePlusOne hr hp htables
    · cases he
    · cases o with
      | ok x => exact fun _ => ht x rfl
      | error e =>
        intro ho
        cases ho
  exact hex.ends hg (fun _ _ h => environments_db h) rfl

theorem removal_wanes {q : Request} {o : Except Exception Unit} (hq : q.call.RemovesRow c r)
    (hex : Outcome cfg q w o v) : Wanes w v :=
  hex.ends (hq.wanes _) fun _ _ h => .of_environments h

/-- `deletePlusOne` gives the slot of the plus-one back.  No other removal of a plus-one from a
parent that stays does, and there is always one that succeeds. -/
theorem slots_refunded (hr : w.row c = some r) (hp : r.invitedByInvitationId = some p) :
    (∀ user ctx v, Outcome cfg ⟨.removePlusOneInvitation c user, ctx⟩ w (.ok ()) v →
      Refunds p w v) ∧
    (∀ q o v, q.call.RemovesRow c r → Outcome cfg q w o v → v.row c = none →
      (v.row p).isSome = true → ¬ Refunds p w v) ∧
    ∃ v, Outcome cfg ⟨.removeInvitation c (some r.eventId), {}⟩ w (.ok ()) v ∧ v.row c = none ∧
      (v.row p).isSome = true := by
  refine ⟨fun user ctx v => deletePlusOne_refunds hr hp, fun q o v hq hex hc hs => ?_, ?_⟩
  · exact (removal_wanes hq hex).not_refunds hr hp hc hs
  · have hsolo := AdminWrite.delete_solo (w := (service cfg).arrive
      ⟨.removeInvitation c (some r.eventId), {}⟩ w) hr rfl
    refine ⟨_, Prog.exec_solo (fun _ => .refl) _ hsolo, ?_, ?_⟩
    · show (w.db.invitations.remove (· == c)).row c = none
      rw [InvitationTable.remove_row, if_pos (InvitationTable.under_of_root (by simp))]
    · show ((w.db.invitations.remove (· == c)).row p).isSome = true
      rw [InvitationTable.row_remove_of_lt (w.db.invitations.parent_lt hr hp)]
      exact w.db.invitations.parent_row hr hp

theorem slots_refunded_family : ∃ r, familyWorld.row 1 = some r ∧ ∃ v,
    Outcome plainConfig ⟨.removeInvitation 1 (some r.eventId), {}⟩ familyWorld (.ok ()) v ∧
      ¬ Refunds 0 familyWorld v := by
  have hrow : (familyWorld.row 1).any (·.invitedByInvitationId = some 0) = true := by decide
  obtain ⟨r, hr, hp⟩ := (Option.any_eq_true _ _).1 hrow
  obtain ⟨-, hlost, v, hv, hc, hs⟩ :=
    @slots_refunded plainConfig 0 1 r familyWorld hr (of_decide_eq_true hp)
  exact ⟨r, hr, v, hv, hlost ⟨.removeInvitation 1 (some r.eventId), {}⟩ _ v rfl hv hc hs⟩

/-- A plus-one deleted by an administrator. -/
theorem slot_lost : ¬ ∀ w c p r, w.row c = some r → r.invitedByInvitationId = some p →
    ∀ q o v, q.call.RemovesRow c r → Outcome plainConfig q w o v → v.row c = none →
      (v.row p).isSome = true → Refunds p w v := by
  intro hall
  have hrow : (familyWorld.row 1).any (·.invitedByInvitationId = some 0) = true := by decide
  obtain ⟨r, hr, hp⟩ := (Option.any_eq_true _ _).1 hrow
  refine absurd (hall familyWorld 1 0 r hr (of_decide_eq_true hp)
    ⟨.removeInvitation 1 (some 7), {}⟩ _ _
    rfl (Prog.exec_run (fun _ => .refl) _ (fun _ _ => false) _) ?_ ?_) ?_
  · exact Option.isNone_iff_eq_none.1 (by decide)
  · decide
  · unfold Refunds
    decide

end InvitationService

import InvitationService.Isolation.Handlers
import InvitationService.Isolation.Projections

namespace InvitationService

open Resumption Query

/-- The invitations that a call is about.  `G` are the moments it may have seen, `a` is the one at
which it arrived. -/
def Call.scope (cfg : Config) (G : World → Prop) (a : World) : Call → Scope
  | .createInvitation input _ => fun j e => a.db.invitations.next ≤ j ∧ input.eventId = some e
  | .importInvitations eventId _ _ _ _ => fun j e => a.db.invitations.next ≤ j ∧ eventId = e
  | .replyInvitation input _ => fun j e => j = input.invitationId ∨
      a.db.invitations.next ≤ j ∧ ∃ v r, G v ∧ v.row input.invitationId = some r ∧ r.eventId = e
  | .createInvitationFromRsvp input _ => fun j e =>
      a.db.invitations.next ≤ j ∧ input.eventId = e
  | .createPlusOnesInvitation input _ _ => fun j e => input.eventId = some e ∧
      (input.invitedByInvitationId = some j ∨ a.db.invitations.next ≤ j)
  | .updatePlusOnesInvitation input _ => fun j _ => input.id = some j
  | .removePlusOneInvitation id _ => fun j _ =>
      j = id ∨ ∃ v, G v ∧ v.db.invitations.parent id = some j
  | .removeAllPlusOnesByInvitationId parentId _ => fun j _ =>
      j = parentId ∨ ∃ v, G v ∧ v.db.invitations.parent j = some parentId
  | .approveInvitation input => fun j e => j = input.id ∧ input.activeEventId = some e
  | .bulkApproveInvitations items _ _ activeEventId => fun j e =>
      (∃ x ∈ items, x.invitationId = j) ∧ activeEventId = some e
  | .bulkStageInvitations ids _ activeEventId => fun j e => j ∈ ids ∧ activeEventId = some e
  | .updateInvitationPlusOneLimit input activeEventId => fun j e =>
      j = input.id ∧ activeEventId = some e
  | .removeInvitation id activeEventId => fun j e => j = id ∧ activeEventId = some e
  | .removeInvitations ids activeEventId => fun j e => j ∈ ids ∧ activeEventId = some e
  | .resendGuestConfirmations ids _ _ activeEventId => fun j e => j ∈ ids ∧ activeEventId = some e
  | .requestGuestConfirmation input _ => fun j e => input.eventId = e ∧ ∃ v r, G v ∧
      v.row j = some r ∧ GuestConfirmation.matchesIdentity cfg
        (GuestConfirmation.normalizeName cfg input.firstName)
        (GuestConfirmation.normalizeName cfg input.lastName)
        (GuestConfirmation.normalizeEmail cfg input.identifier)
        (if (GuestConfirmation.normalizeEmail cfg input.identifier).isSome then none
          else GuestConfirmation.normalizePhone input.identifier) r = true
  | .seatReserved payload => fun j _ => j = payload.invitationId
  | .addGuestId invitationId _ => fun j _ => j = invitationId
  | .deleteUserInvitations guestId => fun j _ => InvitationWrite.Kin G guestId j
  | .deleteEventInvitations eventIds => fun _ e => e ∈ eventIds
  | .job (.generateTicket i _ _ _ _) => fun j _ => j = i
  | .job (.remind i _ _) => fun j _ => j = i
  | _ => fun _ _ => False

section

variable {R : World → World → Prop} {cfg : Config} {G : World → Prop} {a s : World}

theorem requireIds_isolated {E : Scope} {ids : List α} {p : Program Unit}
    (h : Isolated R E p s) :
    (do Prog.ret (Resolver.requireIds ids); p).Within R (Stays R E) (fun _ _ => True) s := by
  cases Resolver.requireIds ids with
  | ok _ => exact h.weaken fun _ _ _ => trivial
  | error _ => trivial

/-- Every step of a call that writes no projection stays within the scope of the call. -/
theorem execute_isolated {q : Request} (hR : Follows R) (hG : ∀ {s t}, R s t → G t)
    (hq : ¬ q.call.Projects) : (execute cfg q).Within R (Stays R (q.call.scope cfg G a))
      (fun _ _ => True) a := by
  obtain ⟨c, ctx⟩ := q
  have hn : Known R (fun v => a.db.invitations.next ≤ v.db.invitations.next) a :=
    .of_now (Nat.le_refl _)
  have hdone : ∀ {α : Type} {E : Scope} {p : Program α}, Isolated R E p a →
      p.Within R (Stays R E) (fun _ _ => True) a := fun h => h.weaken fun _ _ _ => trivial
  have hvoid : ∀ {α : Type} {E : Scope} {p : Program α}, Isolated R E p a →
      (do let _ ← p : Program Unit).Within R (Stays R E) (fun _ _ => True) a := fun h =>
    hdone (h.seq fun _ _ _ => isolated_ret)
  cases c with
  | createInvitation input user =>
    exact hvoid (AdminWrite.create_isolated hR hn fun j e hj he => ⟨hj, he⟩)
  | importInvitations e key uploadType sheet user =>
    refine hdone (Isolated.ite isolated_ret ?_)
    exact (AdminWrite.importInvitations_isolated hR hn fun j hj => ⟨hj, rfl⟩).seq
      fun _ _ _ => isolated_ret
  | replyInvitation input locale =>
    exact hvoid (GuestWrite.reply_isolated hR (fun _ => .inl rfl)
      (fun t r j hst hr hj => .inr ⟨hj, t, r, hG hst, hr, rfl⟩) hn)
  | createInvitationFromRsvp input locale =>
    exact hvoid (GuestWrite.createFromPublicRsvp_isolated hR (fun j hj => ⟨hj, rfl⟩) hn)
  | createPlusOnesInvitation input user locale =>
    refine hvoid (GuestWrite.createPlusOne_isolated hR (fun e p h => ?_) hn)
    unfold GuestWrite.createPlusOneIds at h
    split at h
    · rename_i he hp
      obtain ⟨rfl, rfl⟩ := Prod.mk.inj (Except.ok.inj h)
      exact ⟨⟨he, .inl hp⟩, fun j hj => ⟨he, .inr hj⟩⟩
    · cases h
  | updatePlusOnesInvitation input user =>
    exact hvoid (GuestWrite.updatePlusOne_isolated hR fun i e hi => hi)
  | removePlusOneInvitation id user =>
    exact hvoid (GuestWrite.deletePlusOne_isolated hR (fun _ => .inl rfl)
      fun t p e hst hp => .inr ⟨t, hG hst, hp⟩)
  | removeAllPlusOnesByInvitationId p user =>
    exact hvoid (GuestWrite.deleteAllPlusOnes_isolated hR (fun _ => .inl rfl)
      fun t j e hst hp => .inr ⟨t, hG hst, hp⟩)
  | approveInvitation input =>
    exact hvoid (AdminWrite.approve_isolated hR fun e he => ⟨rfl, he⟩)
  | bulkApproveInvitations items approved user e =>
    exact requireIds_isolated (AdminWrite.bulkApprove_isolated hR fun x hx e he =>
      ⟨⟨x, hx, rfl⟩, he⟩)
  | bulkStageInvitations ids staged e =>
    exact requireIds_isolated (AdminWrite.bulkStage_isolated hR fun id hid e he => ⟨hid, he⟩)
  | updateInvitationPlusOneLimit input e =>
    exact hvoid (AdminWrite.updatePlusOneLimit_isolated hR fun e he => ⟨rfl, he⟩)
  | removeInvitation id e =>
    exact hdone (AdminWrite.delete_isolated hR fun e he => ⟨rfl, he⟩)
  | removeInvitations ids e =>
    exact hdone (AdminWrite.deleteMany_isolated hR fun id hid e he => ⟨hid, he⟩)
  | resendGuestConfirmations ids locale user e =>
    exact requireIds_isolated (AdminWrite.resendGuestConfirmations_isolated hR
      fun id hid e he => ⟨hid, he⟩)
  | requestGuestConfirmation input locale =>
    exact hdone (requestPublicResend_isolated hR fun t r hst hr he hm =>
      ⟨he.symm, t, r, hG hst, hr, hm⟩)
  | seatReserved payload =>
    exact hvoid (GuestConfirmation.sendFirstConfirmation_isolated hR (.inl fun _ => rfl))
  | seatReservationFailed e i => trivial
  | addGuestId i user => exact hdone (handleAddGuestId_isolated hR fun _ => rfl)
  | deleteUserInvitations user =>
    exact hdone (InvitationWrite.deleteByGuestId_isolated hR hG fun j e h => h)
  | deleteEventInvitations es =>
    exact hdone (InvitationWrite.deleteByEventIds_isolated hR fun j e he => he)
  | userAccessChanged payload => exact absurd trivial hq
  | roleAssigned payload => exact absurd trivial hq
  | roleRemoved payload => exact absurd trivial hq
  | ownerChanged payload => exact absurd trivial hq
  | eventDeleted es => exact absurd trivial hq
  | eventCreated payload tenant => exact absurd trivial hq
  | eventUpdated payload tenant => exact absurd trivial hq
  | job job =>
    cases job with
    | generateTicket i e seatId actorId locale => exact generateTicket_isolated hR fun _ => rfl
    | remind i actorId preset => exact remind_isolated hR fun _ => rfl

theorem follows_rely {I : World → Prop} : Follows (System.Rely I Onward a) where
  onward h := h.2.2.2
  trans h k := ⟨h.1, k.2.1, h.2.2.1, h.2.2.2.trans k.2.2.2⟩
  absorb h hm k := ⟨h.1, k.2.1, h.2.2.1, h.2.2.2.trans (hm.trans k.2.2.2)⟩
  now h := ⟨h.2.1, h.2.1, h.2.2.1.trans h.2.2.2, .refl _⟩

/-- What a step of the call may do, `I` being true of the moments that it may have seen. -/
structure Footprint (cfg : Config) (I : World → Prop) (q : Request) (a w v : World) : Prop where
  onward : Onward w v
  projections : q.call.Projects → Alters q.call w v
  invitations : ¬ q.call.Projects →
    Stays (System.Rely I Onward a) (q.call.scope cfg I a) w v

theorem execute_footprint {I : World → Prop} (q : Request) :
    (execute cfg q).Guarantees (System.Rely I Onward a) (Footprint cfg I q a)
      (fun _ _ => True) a := by
  by_cases hq : q.call.Projects
  · exact (execute_projecting hq).mono (fun _ _ h => h)
      (fun _ _ h => ⟨h.onward, fun _ => h, fun hn => absurd hq hn⟩) fun _ _ _ => trivial
  · exact (execute_isolated follows_rely (fun h => h.2.1) hq).mono (fun _ _ h => h)
      (fun _ _ h => ⟨h.onward, fun hp => absurd hp hq, fun _ => h⟩) fun _ _ _ => trivial

end

section

variable {cfg : Config} {s₀ s a : World}
  {ts us vs : List (System.Thread (Nat → Bool) World Exception Request)} {q : Request}
  {β : Type} {f : (Nat → Bool) → World → Except Exception β × World} {k : β → Program Unit}

theorem Interleaved.footprint {I : World → Prop}
    (hs : (service cfg).Interleaved s₀ (us ++ ⟨q, a, .step f k⟩ :: vs) s)
    (hI : ∀ u, (service cfg).Passed s₀ u (us ++ ⟨q, a, .step f k⟩ :: vs) s → I u)
    (i : Nat → Bool) : Footprint cfg I q a s (f i s).2 := by
  have hguarded := hs.guarded (M := Onward) (A := fun q a => Footprint cfg I q a) Onward.refl
    (fun _ _ _ h k => h.trans k) (fun _ _ h => .of_environment h) (fun q s => .log s _)
    (fun _ _ _ _ h => h.onward) (fun q _ _ => execute_footprint q) hI
  exact (hguarded _ (List.mem_append_right _ List.mem_cons_self)).step (hI s (.here hs)) i

/-- Whatever calls interleave, a step of a call touches nothing but what the call is about: no other
invitation, no other's cached contact or cooldown, no projection unless the call is to write it; and
it tells of nothing else.  What the call is about, the service has read at some moment that it has
passed through. -/
theorem steps_in_scope (hs : (service cfg).Interleaved s₀ (us ++ ⟨q, a, .step f k⟩ :: vs) s)
    (i : Nat → Bool) :
    let G := fun u => (service cfg).Passed s₀ u (us ++ ⟨q, a, .step f k⟩ :: vs) s
    (q.call.Projects → Alters q.call s (f i s).2) ∧ (¬ q.call.Projects →
      Confined (fun P => ∃ u, G u ∧ u.Has (q.call.scope cfg G a) P) (q.call.scope cfg G a) s
        (f i s).2) := by
  have h := Interleaved.footprint hs (fun _ hu => hu) i
  exact ⟨h.projections, fun hq => (h.invitations hq).mono fun _ ⟨u, hP, hu⟩ => ⟨u, hu.1, hP⟩⟩

def twoGuests : World where
  db := { World.empty.db with
    invitations := (InvitationTable.empty.insert
        { type := .privateInvite, firstName := "A", lastName := "B", eventId := 7 } nofun).insert
      { type := .privateInvite, firstName := "C", lastName := "D", eventId := 8 } nofun }
  pendingContact := World.empty.pendingContact
  nextToken := 0
  resendCooldown := World.empty.resendCooldown
  locks := World.empty.locks
  nextLock := 0
  now := 0
  journal := []

def deleteEighth : Request := { call := .deleteEventInvitations [8] }

def eighthDeleted : World := twoGuests.log (.called deleteEighth.call)

theorem steps_in_scope_event : ∃ (f : (Nat → Bool) → World → Except Exception Unit × World)
    (k : Unit → Program Unit), execute plainConfig deleteEighth = .step f k ∧
      (f (fun _ => false) eighthDeleted).2.row 1 = none ∧
      ∃ G : World → Prop, Confined (fun P => ∃ u, G u ∧ u.Has (fun _ e => e ∈ [8]) P)
        (fun _ e => e ∈ [8]) eighthDeleted (f (fun _ => false) eighthDeleted).2 := by
  have hrun : (service plainConfig).Interleaved twoGuests
      ([] ++ ⟨deleteEighth, eighthDeleted, execute plainConfig deleteEighth⟩ :: []) eighthDeleted :=
    System.Interleaved.start.call trivial
  exact ⟨_, _, rfl, by decide +kernel, _, (steps_in_scope hrun fun _ => false).2 id⟩

end
end InvitationService

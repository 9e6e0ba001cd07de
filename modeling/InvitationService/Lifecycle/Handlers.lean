import InvitationService.Lifecycle.Guest

namespace InvitationService

open Resumption Query

variable {R : World → World → Prop} {cfg : Config} {ctx : Context} {c : Call} {a s : World}

namespace InvitationWrite

theorem collectLevels_conforms (hR : Stable R cfg c a) {n : Nat} {all queue : List Nat} :
    Conforms R cfg c a (collectLevels n all queue) s := by
  induction n generalizing all queue s with
  | zero => trivial
  | succ n ih =>
    cases queue with
    | nil => trivial
    | cons i queue => exact (conforms_hush hR hush_findManyInvitations).seq fun _ _ => ih

theorem deleteManyInvitations_conforms {p : Invitation → Bool} (hc : c.Removes) :
    Conforms R cfg c a (perform (deleteManyInvitations p)) s :=
  within_act fun t _ => Block.post_call.2 ⟨Hush.refl t,
    .step (Side.of_eq rfl rfl rfl rfl) (.remove hc) (by simp) rfl rfl rfl, trivial⟩

theorem deleteByGuestId_conforms (hR : Stable R cfg c a) {u : UserId} (hc : c.Removes) :
    Conforms R cfg c a (deleteByGuestId u) s := by
  unfold deleteByGuestId
  simp only [liftM_eq]
  refine (conforms_hush hR hush_findManyInvitations).seq fun rs t => .ite trivial ?_
  refine Conforms.seq ?_ fun ids t => deleteManyInvitations_conforms hc
  exact (conforms_hush hR (Block.moves_observe Hush.refl)).seq fun _ _ =>
    collectLevels_conforms hR

theorem deleteByEventIds_conforms {es : List EventId} (hc : c.Removes) :
    Conforms R cfg c a (deleteByEventIds es) s :=
  .ite trivial (deleteManyInvitations_conforms hc)

theorem addGuestId_conforms {i : Nat} {u : UserId} (hc : c = .addGuestId i u) :
    Conforms R cfg c a (addGuestId i u) s := by
  unfold addGuestId
  simp only [liftM_eq]
  refine Conforms.seq ?_ fun _ _ => .ite trivial trivial
  exact within_act fun t _ => post_updateManyInvitations.2 ⟨Hush.refl t,
    fun _ => ⟨.step (Side.of_eq rfl rfl rfl rfl) (.link hc) (by simp) rfl rfl rfl, trivial⟩,
    fun _ => ⟨(Hush.refl t).action, trivial⟩⟩

end InvitationWrite

theorem handleAddGuestId_conforms (hR : Stable R cfg c a) {i : Nat} {u : UserId}
    (hc : c = .addGuestId i u) : Conforms R cfg c a (handleAddGuestId i u) s :=
  (InvitationWrite.addGuestId_conforms hc).seq fun _ _ => conforms_hush hR hush_setSignupMarker

theorem project_guarantees {f : World → Except Exception α × World}
    (hf : ∀ w, Projected c w (f w).2) :
    (perform (Block.call (.dependency .database) f)).Guarantees R (Action R cfg c a)
      (fun _ _ => True) s :=
  guarantees_perform fun t _ =>
    Block.post_call.2 ⟨⟨(Hush.refl t).action, trivial⟩, .project (hf t), trivial⟩

theorem project_conforms {f : World → Except Exception α × World}
    (hf : ∀ w, Projected c w (f w).2) :
    Conforms R cfg c a (perform (Block.call (.dependency .database) f)) s :=
  (project_guarantees hf).weaken fun r _ _ => by cases r <;> trivial

theorem project_attempt_conforms {f : World → Except Exception α × World}
    (hf : ∀ w, Projected c w (f w).2) :
    Conforms R cfg c a (perform (Block.call (.dependency .database) f)).attempt s :=
  Prog.Guarantees.attempt (project_guarantees hf)

theorem gone_eq {es : List EventId} (f : EventId → UserId → Option α) (e : EventId) (u : UserId) :
    e ∈ es ∨ (if e ∈ es then none else f e u) = f e u :=
  (em (e ∈ es)).imp id fun h => if_neg h

namespace EventRoleHandler

theorem projected_role {e : EventId} {u : UserId} (hw : c.WritesRole e u) (x : Option EventRole)
    (w : World) :
    Projected c w { w with db := { w.db with roles := putEntry w.db.roles e u x } } where
  projects := by cases c <;> trivial
  side := Side.of_eq rfl rfl rfl rfl
  invitations := rfl
  outbox := rfl
  access _ _ := .inr rfl
  roles e' u' := by
    by_cases h : e = e' ∧ u = u'
    · obtain ⟨rfl, rfl⟩ := h
      exact .inl hw
    · exact .inr (putEntry_of_ne h)

theorem upsertRole_conforms {e : EventId} {u : UserId} {r : EventRoleType}
    (hw : c.WritesRole e u) : Conforms R cfg c a (perform (upsertRole e u r)) s :=
  project_conforms fun w => projected_role hw _ w

theorem deleteRole_conforms {e : EventId} {u : UserId} (hw : c.WritesRole e u) :
    Conforms R cfg c a (perform (deleteRole e u)) s :=
  project_conforms fun w => projected_role hw none w

theorem handleUserAccessChanged_conforms (hR : Stable R cfg c a) {payload : EventAccessDTO}
    (hc : c = .userAccessChanged payload) :
    Conforms R cfg c a (handleUserAccessChanged payload) s := by
  subst hc
  exact (conforms_hush hR hush_findAccess).seq fun _ _ =>
    .ite trivial (project_conforms fun w => ⟨trivial, Side.of_eq rfl rfl rfl rfl, rfl, rfl,
      fun _ _ => (em _).imp id putEntry_of_ne,
      fun _ _ => .inr rfl⟩)

theorem handleRoleAssigned_conforms (hR : Stable R cfg c a) {payload : EventRoleAssignedDTO}
    (hc : c = .roleAssigned payload) :
    Conforms R cfg c a (handleRoleAssigned payload) s := by
  subst hc
  exact (conforms_hush hR hush_findRole).seq fun _ _ =>
    .ite trivial (upsertRole_conforms (by exact ⟨rfl, rfl⟩))

theorem handleRoleRemoved_conforms (hR : Stable R cfg c a) {payload : EventRoleRemovedDTO}
    (hc : c = .roleRemoved payload) :
    Conforms R cfg c a (handleRoleRemoved payload) s := by
  subst hc
  exact (conforms_hush hR hush_findRole).seq fun _ _ =>
    .ite trivial (deleteRole_conforms (by exact ⟨rfl, rfl⟩))

theorem handleOwnerChanged_conforms (hR : Stable R cfg c a) {payload : EventOwnerChangedDTO}
    (hc : c = .ownerChanged payload) :
    Conforms R cfg c a (handleOwnerChanged payload) s := by
  subst hc
  have hnew : ∀ t, Conforms R cfg (.ownerChanged payload) a (do
      let existingNew ← perform (findRole payload.eventId payload.newOwnerId)
      if isStale payload.occurredAt (existingNew.bind (·.updatedAt)) then pure ()
      else perform (upsertRole payload.eventId payload.newOwnerId .admin)) t := fun t =>
    (conforms_hush hR hush_findRole).seq fun _ _ =>
      .ite trivial (upsertRole_conforms (by exact ⟨rfl, .inr rfl⟩))
  unfold handleOwnerChanged
  simp only [liftM_eq]
  cases hold : payload.oldOwnerId with
  | none => exact hnew s
  | some old =>
    refine (conforms_hush hR hush_findRole).seq fun existing t => ?_
    exact .ite ((deleteRole_conforms (by exact ⟨rfl, .inl hold⟩)).seq fun _ => hnew) (hnew t)

theorem handleEventDeleted_conforms {es : List EventId} (hc : c = .eventDeleted es) :
    Conforms R cfg c a (handleEventDeleted es) s := by
  subst hc
  unfold handleEventDeleted
  simp only [liftM_eq]
  refine (project_attempt_conforms fun w => ⟨(by trivial), Side.of_eq rfl rfl rfl rfl, rfl, rfl,
    fun _ _ => .inr rfl, gone_eq w.db.roles⟩).seq fun roles _ => ?_
  refine (project_attempt_conforms fun w => ⟨(by trivial), Side.of_eq rfl rfl rfl rfl, rfl, rfl,
    fun _ _ => .inr rfl, fun _ _ => .inr rfl⟩).seq fun settings _ => ?_
  refine (project_attempt_conforms fun w => ⟨(by trivial), Side.of_eq rfl rfl rfl rfl, rfl, rfl,
    gone_eq w.db.access, fun _ _ => .inr rfl⟩).seq fun access _ => ?_
  cases roles <;> cases settings <;> cases access <;> trivial

end EventRoleHandler

namespace EventSettingsHandler

theorem upsertSettings_conforms (hc : c.Projects) {e : EventId}
    {create update : EventSettingsData} :
    Conforms R cfg c a (perform (upsertSettings e create update)) s :=
  project_conforms fun _ => by
    dsimp only
    split <;> exact ⟨hc, Side.of_eq rfl rfl rfl rfl, rfl, rfl, fun _ _ => .inr rfl,
      fun _ _ => .inr rfl⟩

theorem handleEventCreated_conforms (hc : c.Projects) {payload : EventCreatedDTO}
    {tenantHeader : Option TenantId} :
    Conforms R cfg c a (handleEventCreated cfg payload tenantHeader) s := by
  cases tenantHeader with
  | none => trivial
  | some t => exact upsertSettings_conforms hc

theorem handleEventUpdated_conforms (hR : Stable R cfg c a) (hc : c.Projects)
    {payload : EventUpdatedDTO} {tenantHeader : Option TenantId} :
    Conforms R cfg c a (handleEventUpdated cfg payload tenantHeader) s := by
  cases tenantHeader with
  | none => trivial
  | some t =>
    exact (conforms_hush hR hush_findSettings).seq fun _ _ =>
      .ite trivial (upsertSettings_conforms hc)

end EventSettingsHandler

theorem handleReserved_conforms (hR : Stable R cfg c a) {payload : SeatReservedDTO}
    (hc : c = .seatReserved payload) : Conforms R cfg c a (handleReserved cfg ctx payload) s :=
  (GuestConfirmation.sendFirstConfirmation_conforms hR
    ⟨by rw [hc]; exact ⟨rfl, rfl⟩, .inl ⟨payload, hc⟩⟩ (.inl ⟨payload, hc⟩)).seq fun _ _ => trivial

theorem locked_conforms (hR : Stable R cfg c a) {l : Lock} {p : Program Unit}
    (hp : ∀ t, Conforms R cfg c a p t) :
    Conforms R cfg c a (do
      let token ← perform (acquireLock l)
      match token with
      | none => pure ()
      | some token => p.ensuring (perform (releaseLock l token))) s := by
  refine (conforms_hush hR hush_acquireLock).seq fun o t => ?_
  cases o with
  | none => trivial
  | some token => exact Prog.Within.ensuring (hp t) fun _ => conforms_hush hR hush_releaseLock

theorem generateTicket_conforms (hR : Stable R cfg c a) {i : Nat} {e : EventId}
    {seatId : Option SeatId} {actorId : UserId} {locale : Option Locale}
    (hc : c = .job (.generateTicket i e seatId actorId locale)) :
    Conforms R cfg c a (generateTicket cfg ctx i seatId actorId locale) s := by
  refine locked_conforms hR fun t => ?_
  unfold generateTicketLocked
  simp only [liftM_eq]
  refine (conforms_hush hR hush_findInvitation).seq fun o t => ?_
  cases o with
  | none => trivial
  | some r =>
    refine .ite trivial (.ite trivial (.ite trivial (.ite trivial ?_)))
    exact (GuestConfirmation.sendFirstConfirmationOrReserve_conforms hR
      (fun _ => by rw [hc]; exact ⟨rfl, rfl⟩) (.inl ⟨e, seatId, actorId, locale, hc⟩)).seq
        fun _ _ => trivial

theorem remind_conforms (hR : Stable R cfg c a) (hc : c.Resends) {i : Nat}
    {actorId : Option UserId} {preset : Option String} :
    Conforms R cfg c a (remind cfg ctx i actorId preset) s := by
  refine locked_conforms hR fun t => ?_
  unfold remindLocked
  simp only [liftM_eq]
  refine (conforms_hush hR hush_findInvitation).seq fun o t => ?_
  cases o with
  | none => trivial
  | some r =>
    refine (conforms_hush hR hush_findSettings).seq fun settings _ => ?_
    refine (conforms_hush hR hush_clock).seq fun now _ => ?_
    refine .ite trivial (.ite trivial (.ite trivial (.ite trivial (.ite trivial
      (.ite trivial (.ite trivial ?_))))))
    exact (GuestConfirmation.resendConfirmation_conforms hR hc).seq fun _ _ =>
      within_act fun u _ => post_note.2 ⟨.reminded hc, trivial⟩

theorem requireIds_seq {ids : List α} {p : Program Unit} (h : ∀ t, Conforms R cfg c a p t) :
    Conforms R cfg c a (do Prog.ret (Resolver.requireIds ids); p) s := by
  cases Resolver.requireIds ids with
  | ok _ => exact h s
  | error _ => trivial

/-- Every step of every call is one of its actions. -/
theorem execute_conforms {q : Request} {s : World} (hR : Stable R cfg q.call s) :
    Conforms R cfg q.call s (execute cfg q) s := by
  obtain ⟨c, ctx⟩ := q
  cases c with
  | createInvitation input user => exact (AdminWrite.create_conforms hR rfl).seq fun _ _ => trivial
  | importInvitations e key uploadType sheet user =>
    exact .ite trivial ((AdminWrite.importInvitations_conforms hR rfl).seq fun _ _ => trivial)
  | replyInvitation input locale => exact (GuestWrite.reply_conforms hR rfl).seq fun _ _ => trivial
  | createInvitationFromRsvp input locale =>
    exact (GuestWrite.createFromPublicRsvp_conforms hR rfl (Nat.le_refl _)).seq fun _ _ => trivial
  | createPlusOnesInvitation input user locale =>
    exact (GuestWrite.createPlusOne_conforms hR rfl).seq fun _ _ => trivial
  | updatePlusOnesInvitation input user =>
    exact (GuestWrite.updatePlusOne_conforms rfl).seq fun _ _ => trivial
  | removePlusOneInvitation i user =>
    exact (GuestWrite.deletePlusOne_conforms rfl).seq fun _ _ => trivial
  | removeAllPlusOnesByInvitationId p user =>
    exact (GuestWrite.deleteAllPlusOnes_conforms rfl).seq fun _ _ => trivial
  | approveInvitation input =>
    exact (AdminWrite.approve_conforms hR (fun h => .of_always fun _ => .inl ⟨h, rfl⟩)
      (fun h _ => ⟨h, rfl, rfl⟩) fun h => ⟨h, rfl⟩).seq fun _ _ => trivial
  | bulkApproveInvitations items approved user e =>
    exact requireIds_seq fun _ => AdminWrite.bulkApprove_conforms hR rfl
  | bulkStageInvitations ids staged e =>
    exact requireIds_seq fun _ => AdminWrite.bulkStage_conforms hR rfl
  | updateInvitationPlusOneLimit input e =>
    exact (AdminWrite.updatePlusOneLimit_conforms rfl).seq fun _ _ => trivial
  | removeInvitation i e => exact AdminWrite.delete_conforms hR rfl
  | removeInvitations is e => exact AdminWrite.deleteMany_conforms rfl
  | resendGuestConfirmations ids locale user e =>
    exact requireIds_seq fun _ => AdminWrite.resendGuestConfirmations_conforms hR trivial
  | requestGuestConfirmation input locale =>
    exact GuestConfirmation.requestPublicResend_conforms hR trivial
  | seatReserved payload => exact handleReserved_conforms hR rfl
  | seatReservationFailed e i => trivial
  | addGuestId i u => exact handleAddGuestId_conforms hR rfl
  | deleteUserInvitations u => exact InvitationWrite.deleteByGuestId_conforms hR trivial
  | deleteEventInvitations es => exact InvitationWrite.deleteByEventIds_conforms trivial
  | userAccessChanged payload =>
    exact EventRoleHandler.handleUserAccessChanged_conforms hR rfl
  | roleAssigned payload => exact EventRoleHandler.handleRoleAssigned_conforms hR rfl
  | roleRemoved payload => exact EventRoleHandler.handleRoleRemoved_conforms hR rfl
  | ownerChanged payload => exact EventRoleHandler.handleOwnerChanged_conforms hR rfl
  | eventDeleted es => exact EventRoleHandler.handleEventDeleted_conforms rfl
  | eventCreated payload tenant =>
    exact EventSettingsHandler.handleEventCreated_conforms (by trivial)
  | eventUpdated payload tenant =>
    exact EventSettingsHandler.handleEventUpdated_conforms hR trivial
  | job j =>
    cases j with
    | generateTicket i e seatId actorId locale => exact generateTicket_conforms hR rfl
    | remind i actorId preset => exact remind_conforms hR trivial

end InvitationService

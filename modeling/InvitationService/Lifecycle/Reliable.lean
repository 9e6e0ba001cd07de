import InvitationService.Lifecycle.Runs

open Relation (ReflTransGen)

namespace InvitationService

open Resumption Query GuestConfirmation

/-! The service while every dependency works. -/

def Exception.Failure (e : Exception) : Prop := ∃ d, e = .dependency d

abbrev Sound (p : Program α) : Prop := p.Avoids (fun _ => false) Exception.Failure

variable {cfg : Config} {ctx : Context} {i : Nat} {b : Query α}

theorem sound_call {e : Exception} {f : World → Except Exception α × World}
    (hf : ∀ w e, (f w).1 = .error e → ¬ e.Failure) : Sound (perform (Block.call e f)) :=
  avoids_perform (Block.avoids_call hf)

theorem sound_findInvitation : Sound (perform (findInvitation i)) := sound_call fun _ _ => nofun

theorem sound_findManyInvitations {p : Invitation → Bool} :
    Sound (perform (findManyInvitations p)) := sound_call fun _ _ => nofun

theorem sound_findSettings {e : EventId} : Sound (perform (findSettings e)) :=
  sound_call fun _ _ => nofun

theorem sound_clock : Sound (perform clock) := avoids_perform Block.avoids_observe

theorem sound_note {x : Effect} : Sound (perform (note x)) := avoids_perform Block.avoids_record

theorem sound_send {m : Message} {actorId : Option UserId} :
    Sound (perform (send cfg ctx m actorId)) :=
  sound_call fun _ _ => nofun

theorem sound_cacheSet {payload : PendingUser} : Sound (perform (cacheSet payload)) :=
  sound_call fun _ _ => nofun

theorem sound_inResendCooldown : Sound (perform (inResendCooldown i)) := sound_call fun _ _ => nofun

theorem sound_setResendCooldown : Sound (perform (setResendCooldown i)) :=
  sound_call fun _ _ => nofun

namespace GuestConfirmation

theorem persistSend_sound {token : Nat} {payload : PendingUser} {inc : Bool} :
    Sound (perform (persistSend i token payload inc)) := by
  refine avoids_perform (Prog.Avoids.bind Block.avoids_observe fun _ =>
    Prog.Avoids.bind (Block.avoids_call fun w e he => ?_) fun _ => trivial)
  split at he
  · cases he
  · cases he
    exact fun ⟨_, h⟩ => nomatch h

theorem requestSeatReservation_sound {actorId : Option UserId} :
    Sound (requestSeatReservation cfg ctx i actorId) := by
  unfold requestSeatReservation
  simp only [liftM_eq]
  refine sound_findInvitation.bind fun o => ?_
  cases o with
  | none => trivial
  | some r => exact .ite trivial (.ite trivial (sound_send.bind fun _ => trivial))

theorem recordResentAnalytics_sound : Sound (recordResentAnalytics ctx i) := by
  refine avoids_transaction ?_
  unfold enqueue
  split
  · exact fun ⟨_, h⟩ => nomatch h
  · exact Block.avoids_call fun _ _ => nofun

theorem resendConfirmation_sound {actorId : Option UserId} {locale : Option Locale} :
    Sound (resendConfirmation cfg ctx i actorId locale) := by
  have hafter : Sound (do
      recordResentAnalytics ctx i
      perform (note (.resent i))
      pure ResendConfirmationResult.resent) :=
    recordResentAnalytics_sound.bind fun _ => sound_note.bind fun _ => trivial
  unfold resendConfirmation
  simp only [liftM_eq]
  refine sound_findInvitation.bind fun o => ?_
  cases o with
  | none => exact fun ⟨_, h⟩ => nomatch h
  | some r =>
    refine .ite trivial (.ite trivial ?_)
    refine sound_clock.bind fun now => .ite trivial ?_
    split
    · trivial
    · refine sound_inResendCooldown.bind fun b => .ite trivial ?_
      refine sound_setResendCooldown.bind fun _ => .ite ?_ ?_
      · refine sound_cacheSet.bind fun token => persistSend_sound.bind fun _ => ?_
        exact Prog.Avoids.bind (avoids_perform (Prog.Avoids.bind Block.avoids_observe fun _ =>
          Block.avoids_call fun _ _ => nofun)) fun _ => hafter
      · exact requestSeatReservation_sound.bind fun _ => hafter

theorem requestPublicResend_sound {input : RequestGuestConfirmationInput} {locale : Locale} :
    Sound (requestPublicResend cfg ctx input locale) := by
  unfold requestPublicResend
  simp only [liftM_eq]
  refine .ite trivial (.ite trivial (sound_findManyInvitations.bind fun rs => ?_))
  split
  · exact resendConfirmation_sound.bind fun _ => trivial
  · trivial

end GuestConfirmation

theorem resendGuestConfirmations_sound {ids : List Nat} {locale : Option Locale} {user : UserId}
    {e : Option EventId} :
    Sound (AdminWrite.resendGuestConfirmations cfg ctx ids locale user e) := by
  refine Prog.Avoids.forM fun j => ?_
  simp only [liftM_eq]
  refine Prog.Avoids.bind (avoids_perform ?_) fun _ =>
    resendConfirmation_sound.bind fun _ => trivial
  refine Prog.Avoids.bind (Prog.Avoids.bind (Block.avoids_call fun _ _ => nofun) fun o => ?_)
    fun r => ?_
  · cases o with
    | none => exact fun ⟨_, h⟩ => nomatch h
    | some r => trivial
  · unfold AdminWrite.assertMatchesActiveEvent
    split
    · exact fun ⟨_, h⟩ => nomatch h
    · split
      · trivial
      · exact fun ⟨_, h⟩ => nomatch h

theorem remindLocked_sound {actorId : Option UserId} {preset : Option String} :
    Sound (remindLocked cfg ctx i actorId preset) := by
  unfold remindLocked
  simp only [liftM_eq]
  refine sound_findInvitation.bind fun o => ?_
  cases o with
  | none => trivial
  | some r =>
    refine sound_findSettings.bind fun settings => ?_
    refine sound_clock.bind fun now => ?_
    refine .ite trivial (.ite trivial (.ite trivial (.ite trivial (.ite trivial ?_))))
    exact .ite trivial (.ite trivial (resendConfirmation_sound.bind fun _ => sound_note))

theorem remind_sound {actorId : Option UserId} {preset : Option String} :
    Sound (remind cfg ctx i actorId preset) := by
  unfold remind
  simp only [liftM_eq]
  refine Prog.Avoids.bind (sound_call fun w e he => ?_) fun o => ?_
  · split at he <;> cases he
  · cases o with
    | none => trivial
    | some token =>
      refine remindLocked_sound.ensuring (sound_call fun w e he => ?_)
      split at he <;> cases he

theorem execute_sound {c : Call} (hc : c.Resends) : Sound (execute cfg ⟨c, ctx⟩) := by
  cases c with
  | resendGuestConfirmations ids locale user e =>
    refine Prog.Avoids.bind ?_ fun _ => resendGuestConfirmations_sound
    unfold Resolver.requireIds
    split
    · exact fun ⟨_, h⟩ => nomatch h
    · trivial
  | requestGuestConfirmation input locale => exact requestPublicResend_sound
  | job x =>
    cases x with
    | remind j actorId preset => exact remind_sound
    | generateTicket => exact hc.elim
  | _ => exact hc.elim

/-- Whatever it finds, the call ends without an exception when no dependency fails in it. -/
def Dependable (cfg : Config) (q : Request) : Prop :=
  ∀ s r t, Prog.Exec (ReflTransGen World.Environment) ((reliable cfg).exec q) s r t → r = .ok ()

abbrev Succeeds (p : Program α) : Prop := p.Avoids (fun _ => false) fun _ => True

theorem Succeeds.dependable {q : Request} (h : Succeeds (execute cfg q)) : Dependable cfg q :=
  fun _ r _ hex => by
    cases r with
    | ok _ => rfl
    | error e => exact absurd trivial (hex.avoids h e rfl)

theorem outcome_of_dependable {s w : World} {h : List CallRecord}
    (hs : (reliable cfg).Serial s h w) {x : CallRecord} (hx : x ∈ h)
    (hq : Dependable cfg x.call) : x.outcome = .ok () := by
  obtain ⟨g, g', rfl⟩ := List.append_of_mem hx
  obtain ⟨-, -, t, hex, -⟩ := hs.split
  exact hq _ _ _ hex

theorem succeeds_call {e : Exception} {f : World → Except Exception α × World}
    (hf : ∀ w e, (f w).1 ≠ .error e) : Succeeds (perform (Block.call e f)) :=
  avoids_perform (Block.avoids_call fun w e he => absurd he (hf w e))

theorem succeeds_findRole {e : EventId} {u : UserId} : Succeeds (perform (findRole e u)) :=
  succeeds_call fun _ _ => nofun

theorem succeeds_upsertRole {e : EventId} {u : UserId} {role : EventRoleType} :
    Succeeds (perform (upsertRole e u role)) := succeeds_call fun _ _ => nofun

theorem succeeds_deleteRole {e : EventId} {u : UserId} : Succeeds (perform (deleteRole e u)) :=
  succeeds_call fun _ _ => nofun

theorem succeeds_upsertSettings {e : EventId} {create update : EventSettingsData}
    (hc : create.fits = true) (hu : update.fits = true) :
    Succeeds (perform (upsertSettings e create update)) :=
  succeeds_call fun _ _ => by
    rw [hc, hu]
    exact nofun

namespace EventRoleHandler

theorem handleUserAccessChanged_succeeds {payload : EventAccessDTO} :
    Succeeds (handleUserAccessChanged payload) := by
  unfold handleUserAccessChanged
  simp only [liftM_eq]
  exact Prog.Avoids.bind (succeeds_call fun _ _ => nofun) fun _ =>
    .ite trivial (succeeds_call fun _ _ => nofun)

theorem handleRoleAssigned_succeeds {payload : EventRoleAssignedDTO} :
    Succeeds (handleRoleAssigned payload) :=
  Prog.Avoids.bind succeeds_findRole fun _ => .ite trivial succeeds_upsertRole

theorem handleRoleRemoved_succeeds {payload : EventRoleRemovedDTO} :
    Succeeds (handleRoleRemoved payload) :=
  Prog.Avoids.bind succeeds_findRole fun _ => .ite trivial succeeds_deleteRole

theorem handleOwnerChanged_succeeds {payload : EventOwnerChangedDTO} :
    Succeeds (handleOwnerChanged payload) := by
  have hnew : Succeeds (do
      let existingNew ← perform (findRole payload.eventId payload.newOwnerId)
      if isStale payload.occurredAt (existingNew.bind (·.updatedAt)) then pure ()
      else perform (upsertRole payload.eventId payload.newOwnerId .admin)) :=
    Prog.Avoids.bind succeeds_findRole fun _ => .ite trivial succeeds_upsertRole
  unfold handleOwnerChanged
  simp only [liftM_eq]
  cases payload.oldOwnerId with
  | none => exact hnew
  | some old =>
    refine Prog.Avoids.bind succeeds_findRole fun _ => ?_
    exact .ite (succeeds_deleteRole.bind fun _ => hnew) hnew

end EventRoleHandler

namespace EventSettingsHandler

theorem handleEventCreated_succeeds {payload : EventCreatedDTO} {tenantId : TenantId}
    (h : (createdSettings cfg payload tenantId).fits = true) :
    Succeeds (handleEventCreated cfg payload (some tenantId)) := succeeds_upsertSettings h h

theorem fits_patchSettings {payload : EventUpdatedDTO} {tenantId : TenantId}
    (h : (updatedSettings cfg payload tenantId).fits = true) :
    (patchSettings payload tenantId).fits = true := by
  have hjoin : ∀ x : Option Int, (x.map some).join = x := fun x => by cases x <;> rfl
  rw [EventSettingsData.fits, patchSettings, hjoin, hjoin]
  exact h

theorem handleEventUpdated_succeeds {payload : EventUpdatedDTO} {tenantId : TenantId}
    (h : (updatedSettings cfg payload tenantId).fits = true) :
    Succeeds (handleEventUpdated cfg payload (some tenantId)) :=
  Prog.Avoids.bind (succeeds_call fun _ _ => nofun) fun _ =>
    .ite trivial (succeeds_upsertSettings h (fits_patchSettings h))

end EventSettingsHandler

end InvitationService

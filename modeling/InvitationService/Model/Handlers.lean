import InvitationService.Model.GuestWrite

namespace InvitationService

open Query
open Resumption (Prog)

namespace InvitationWrite

/-- The breadth-first loop of `collectInvitationTree`; each round goes one level down, so
the number of ids ever handed out bounds the rounds. -/
def collectLevels : Nat → List Nat → List Nat → Program (List Nat)
  | 0, all, _ => return all
  | _ + 1, all, [] => return all
  | fuel + 1, all, queue => do
    let children ← findManyInvitations fun r => r.invitedByInvitationId.any (· ∈ queue)
    let ids := children.map (·.id)
    collectLevels fuel (all ++ ids.filter (· ∉ all)) ids

/-- A `Set` holds each root once; the queue starts with the list as it is given. -/
def collectInvitationTree (rootIds : List Nat) : Program (List Nat) := do
  let fuel ← (Resumption.Block.observe (·.db.invitations.next) : Query Nat)
  collectLevels fuel rootIds.eraseDups rootIds

def deleteByGuestId (guestId : UserId) : Program Unit := do
  let rootInvitations ← findManyInvitations (·.guestProfileId = some guestId)
  if rootInvitations.isEmpty then return
  let invitationIds ← collectInvitationTree (rootInvitations.map (·.id))
  deleteManyInvitations (·.id ∈ invitationIds)

def deleteByEventIds (eventIds : List EventId) : Program Unit := do
  if eventIds.isEmpty then return
  deleteManyInvitations (·.eventId ∈ eventIds)

def addGuestId (invitationId : Nat) (userId : UserId) : Program Unit := do
  let count ← updateManyInvitations invitationId (fun _ => true)
    { guestProfileId := some (some userId) }
  if count = 0 then throw (.invitationNotFound invitationId)

end InvitationWrite

/-- `TicketHandler`: the marker follows the link. -/
def handleAddGuestId (invitationId : Nat) (userId : UserId) : Program Unit := do
  InvitationWrite.addGuestId invitationId userId
  setSignupMarker invitationId userId

namespace EventRoleHandler

/-- Older than what the projection has. -/
def isStale (occurredAt : Nat) (stored : Option Nat) : Bool := stored.any (occurredAt < ·)

def handleUserAccessChanged (payload : EventAccessDTO) : Program Unit := do
  let existing ← findAccess payload.eventId payload.userId
  if isStale payload.occurredAt (existing.bind (·.occurredAt)) then return
  upsertAccess payload.eventId payload.userId payload.permissions payload.roles payload.occurredAt

def handleRoleAssigned (payload : EventRoleAssignedDTO) : Program Unit := do
  let existing ← findRole payload.eventId payload.userId
  if isStale payload.occurredAt (existing.bind (·.updatedAt)) then return
  upsertRole payload.eventId payload.userId payload.role

def handleRoleRemoved (payload : EventRoleRemovedDTO) : Program Unit := do
  let existing ← findRole payload.eventId payload.userId
  if isStale payload.occurredAt (existing.bind (·.updatedAt)) then return
  -- nothing is left that a later message could be compared with
  deleteRole payload.eventId payload.userId

def handleOwnerChanged (payload : EventOwnerChangedDTO) : Program Unit := do
  match payload.oldOwnerId with
  | some oldOwnerId =>
    let existing ← findRole payload.eventId oldOwnerId
    if !isStale payload.occurredAt (existing.bind (·.updatedAt)) then
      deleteRole payload.eventId oldOwnerId
  | none => pure ()
  let existingNew ← findRole payload.eventId payload.newOwnerId
  if isStale payload.occurredAt (existingNew.bind (·.updatedAt)) then return
  upsertRole payload.eventId payload.newOwnerId .admin

/-- `Promise.all`: a failed removal does not keep the others from running. -/
def handleEventDeleted (eventIds : List EventId) : Program Unit := do
  let roles ← (liftM (deleteRolesOf eventIds) : Program Unit).attempt
  let settings ← (liftM (deleteSettingsOf eventIds) : Program Unit).attempt
  let access ← (liftM (deleteAccessOf eventIds) : Program Unit).attempt
  Prog.ret roles
  Prog.ret settings
  Prog.ret access

end EventRoleHandler

namespace EventSettingsHandler

variable (cfg : Config)

/-- What `event.created` writes, whether it creates the row or updates it. -/
def createdSettings (payload : EventCreatedDTO) (tenantId : TenantId) : EventSettingsData where
  tenantId := tenantId
  name := payload.name
  startsAt := some payload.startsAt.join
  endsAt := some payload.endsAt.join
  approvalMode := payload.approvalMode
  allowPublicRsvp := payload.allowPublicRsvp
  requireApprovalForPlusOnes := payload.requireApprovalForPlusOnes.join.getD true
  scheduleTicketRelease := payload.scheduleTicketRelease.join.getD false
  guestConfirmationReminderEnabled := payload.guestConfirmationReminderEnabled.join.getD true
  guestConfirmationReminderPresets :=
    payload.guestConfirmationReminderPresets.join.getD cfg.guestReminderPresets
  guestConfirmationMaxResends := some payload.guestConfirmationMaxResends.join
  rsvpDeadline := some payload.rsvpDeadline.join
  maxSeats := payload.maxSeats
  ticketReleaseAt := some payload.ticketReleaseAt.join

def handleEventCreated (payload : EventCreatedDTO) (tenantHeader : Option TenantId) :
    Program Unit := do
  match tenantHeader with
  | none => throw .tenantHeaderRequired
  | some tenantId =>
    upsertSettings payload.eventId (createdSettings cfg payload tenantId)
      (createdSettings cfg payload tenantId)

/-- What `event.updated` writes for an event it does not know. -/
def updatedSettings (payload : EventUpdatedDTO) (tenantId : TenantId) : EventSettingsData where
  tenantId := tenantId
  name := some payload.name.join
  startsAt := some payload.startsAt.join
  endsAt := some payload.endsAt.join
  approvalMode := some payload.approvalMode.join
  allowPublicRsvp := payload.allowPublicRsvp.join.getD false
  requireApprovalForPlusOnes := payload.requireApprovalForPlusOnes.join.getD true
  scheduleTicketRelease := payload.scheduleTicketRelease.join.getD false
  guestConfirmationReminderEnabled := payload.guestConfirmationReminderEnabled.join.getD true
  guestConfirmationReminderPresets :=
    payload.guestConfirmationReminderPresets.join.getD cfg.guestReminderPresets
  guestConfirmationMaxResends := some payload.guestConfirmationMaxResends.join
  rsvpDeadline := some payload.rsvpDeadline.join
  maxSeats := some payload.maxSeats.join
  ticketReleaseAt := some payload.ticketReleaseAt.join

/-- What `event.updated` changes of a row: `null` clears a date, and is passed over elsewhere. -/
def patchSettings (payload : EventUpdatedDTO) (tenantId : TenantId) : EventSettingsData where
  tenantId := tenantId
  name := payload.name.join.map some
  startsAt := payload.startsAt
  endsAt := payload.endsAt
  approvalMode := payload.approvalMode.join.map some
  allowPublicRsvp := payload.allowPublicRsvp.join
  requireApprovalForPlusOnes := payload.requireApprovalForPlusOnes.join
  scheduleTicketRelease := payload.scheduleTicketRelease.join
  guestConfirmationReminderEnabled := payload.guestConfirmationReminderEnabled.join
  guestConfirmationReminderPresets := payload.guestConfirmationReminderPresets.join
  guestConfirmationMaxResends := payload.guestConfirmationMaxResends.join.map some
  rsvpDeadline := payload.rsvpDeadline
  maxSeats := payload.maxSeats.join.map some
  ticketReleaseAt := payload.ticketReleaseAt

def handleEventUpdated (payload : EventUpdatedDTO) (tenantHeader : Option TenantId) :
    Program Unit := do
  match tenantHeader with
  | none => throw .tenantHeaderRequired
  | some tenantId =>
    let existing ← findSettings payload.eventId
    if EventRoleHandler.isStale payload.occurredAt (existing.bind (·.updatedAt)) then return
    upsertSettings payload.eventId (updatedSettings cfg payload tenantId)
      (patchSettings payload tenantId)

end EventSettingsHandler

variable (cfg : Config) (ctx : Context)

/-- `GuestSeatReservationHandler.handleReserved`. -/
def handleReserved (payload : SeatReservedDTO) : Program Unit := do
  let _ ← GuestConfirmation.sendFirstConfirmation cfg ctx payload.invitationId
    (some payload.seatId) payload.actorId none

/-- The body of `generateTicket`, under its lock. -/
def generateTicketLocked (invitationId : Nat) (seatId : Option SeatId) (actorId : UserId)
    (locale : Option Locale) : Program Unit := do
  match ← findInvitation invitationId with
  | none => return
  | some invitation =>
    if invitation.status ≠ .approved then return
    if invitation.guestProfileId.isSome then return
    if invitation.pendingContactId.isNone then return
    if invitation.firstName = "" || invitation.lastName = "" then return
    let _ ← GuestConfirmation.sendFirstConfirmationOrReserve cfg ctx invitationId seatId
      (some actorId) locale

def generateTicket (invitationId : Nat) (seatId : Option SeatId) (actorId : UserId)
    (locale : Option Locale) : Program Unit := do
  match ← acquireLock (.ticketGenerate invitationId) with
  | none => return
  | some token =>
    (generateTicketLocked cfg ctx invitationId seatId actorId locale).ensuring
      (liftM (releaseLock (.ticketGenerate invitationId) token))

def maxResends (settings : Option EventSettings) : Int :=
  (settings.bind (·.guestConfirmationMaxResends)).getD cfg.guestReminderMaxResends

/-- A reminder for a preset that comes before the preset's moment. -/
def tooEarly (settings : Option EventSettings) (preset : Option String) (now : Nat) : Bool :=
  match settings.bind (·.startsAt), preset.bind GuestConfirmation.reminderOffset with
  | some startsAt, some offset => (now : Int) < startsAt - offset
  | _, _ => false

/-- The body of `remind`, under its lock. -/
def remindLocked (invitationId : Nat) (actorId : Option UserId) (preset : Option String) :
    Program Unit := do
  match ← findInvitation invitationId with
  | none => return
  | some invitation =>
    let settings ← findSettings invitation.eventId
    let now ← clock
    if settings.any (!·.guestConfirmationReminderEnabled) then return
    if tooEarly settings preset now then return
    if invitation.guestProfileId.isSome then return
    if !GuestConfirmation.actionable invitation.status then return
    if invitation.eventEndsAt.any (· ≤ now) then return
    if maxResends cfg settings ≤ invitation.confirmationResendCount then return
    if invitation.pendingContactPayload.isNone then return
    let result ← GuestConfirmation.resendConfirmation cfg ctx invitationId actorId none
    note (.reminded invitationId result.isResent)

def remind (invitationId : Nat) (actorId : Option UserId) (preset : Option String) :
    Program Unit := do
  match ← acquireLock (.guestConfirmation invitationId) with
  | none => return
  | some token =>
    (remindLocked cfg ctx invitationId actorId preset).ensuring
      (liftM (releaseLock (.guestConfirmation invitationId) token))

end InvitationService

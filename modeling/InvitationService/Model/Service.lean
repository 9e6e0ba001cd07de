import InvitationService.Model.Handlers
import InvitationService.Lib.System

namespace InvitationService

open Resumption

/-- A call with the context it comes in. -/
structure Request where
  call : Call
  context : Context := {}
  deriving DecidableEq, Repr

namespace Resolver

variable (cfg : Config) (ctx : Context)

def importInvitations (eventId : EventId) (key uploadType : String) (sheet : Option Sheet)
    (user : UserId) : Program Unit := do
  if key = "" || uploadType = "" then
    throw (.invitationValidation "Storage key and upload type are required")
  let _ ← AdminWrite.importInvitations cfg ctx eventId uploadType sheet user

def requireIds (ids : List α) : Except Exception Unit :=
  if ids.isEmpty then throw (.invitationValidation "Invitation IDs must not be empty")
  else return

def bulkApproveInvitations (items : List ApproveInvitationDataInput) (approved : Bool)
    (user : UserId) (activeEventId : Option EventId) : Program Unit := do
  Prog.ret (requireIds items)
  AdminWrite.bulkApprove cfg ctx items approved user activeEventId

def bulkStageInvitations (ids : List Nat) (staged : Bool) (activeEventId : Option EventId) :
    Program Unit := do
  Prog.ret (requireIds ids)
  AdminWrite.bulkStage ids staged activeEventId

def resendGuestConfirmations (ids : List Nat) (locale : Option Locale) (user : UserId)
    (activeEventId : Option EventId) : Program Unit := do
  Prog.ret (requireIds ids)
  AdminWrite.resendGuestConfirmations cfg ctx ids locale user activeEventId

end Resolver

/-- What a call runs.  The public resend is detached from its response, which never
shows how it ended; here it stands for the detached work. -/
def execute (cfg : Config) (q : Request) : Program Unit :=
  let ctx := q.context
  match q.call with
  | .createInvitation input user => do let _ ← AdminWrite.create cfg ctx input (some user)
  | .importInvitations e key uploadType sheet user =>
    Resolver.importInvitations cfg ctx e key uploadType sheet user
  | .replyInvitation input locale => do let _ ← GuestWrite.reply cfg ctx input locale
  | .createInvitationFromRsvp input locale => do
    let _ ← GuestWrite.createFromPublicRsvp cfg ctx input locale
  | .createPlusOnesInvitation input user locale => do
    let _ ← GuestWrite.createPlusOne cfg ctx input user locale
  | .updatePlusOnesInvitation input user => do let _ ← GuestWrite.updatePlusOne cfg input user
  | .removePlusOneInvitation id user => do let _ ← GuestWrite.deletePlusOne cfg ctx id user
  | .removeAllPlusOnesByInvitationId parentId user => do
    let _ ← GuestWrite.deleteAllPlusOnes cfg ctx parentId user
  | .approveInvitation input => do let _ ← AdminWrite.approve cfg ctx input
  | .bulkApproveInvitations items approved user e =>
    Resolver.bulkApproveInvitations cfg ctx items approved user e
  | .bulkStageInvitations ids staged e => Resolver.bulkStageInvitations ids staged e
  | .updateInvitationPlusOneLimit input e => do let _ ← AdminWrite.updatePlusOneLimit input e
  | .removeInvitation id e => AdminWrite.delete id e
  | .removeInvitations ids e => AdminWrite.deleteMany ids e
  | .resendGuestConfirmations ids locale user e =>
    Resolver.resendGuestConfirmations cfg ctx ids locale user e
  | .requestGuestConfirmation input locale =>
    GuestConfirmation.requestPublicResend cfg ctx input locale
  | .seatReserved payload => handleReserved cfg ctx payload
  | .seatReservationFailed _ _ => return
  | .addGuestId i u => handleAddGuestId i u
  | .deleteUserInvitations u => InvitationWrite.deleteByGuestId u
  | .deleteEventInvitations es => InvitationWrite.deleteByEventIds es
  | .userAccessChanged payload => EventRoleHandler.handleUserAccessChanged payload
  | .roleAssigned payload => EventRoleHandler.handleRoleAssigned payload
  | .roleRemoved payload => EventRoleHandler.handleRoleRemoved payload
  | .ownerChanged payload => EventRoleHandler.handleOwnerChanged payload
  | .eventDeleted es => EventRoleHandler.handleEventDeleted es
  | .eventCreated payload tenant => EventSettingsHandler.handleEventCreated cfg payload tenant
  | .eventUpdated payload tenant => EventSettingsHandler.handleEventUpdated cfg payload tenant
  | .job (.generateTicket i _ seatId actorId locale) =>
    generateTicket cfg ctx i seatId actorId locale
  | .job (.remind i actorId preset) => remind cfg ctx i actorId preset

/-- A delayed job runs once it is due, perhaps more than once; everything else may come
at any time. -/
def Enabled (q : Request) (w : World) : Prop :=
  match q.call with
  | .job job => ∃ due ≤ w.now, .scheduled job due ∈ w.journal
  | _ => True

def service (cfg : Config) : System (Nat → Bool) World Exception Request where
  exec := execute cfg
  enabled := Enabled
  arrive q w := w.log (.called q.call)
  env := World.Environment

end InvitationService

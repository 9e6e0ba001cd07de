import InvitationService.Model.Store
import Mathlib.Logic.Function.Basic

namespace InvitationService

/-- The environment variables the service reads and the functions it imports from
the shared packages. -/
structure Config where
  defaultTenantId : TenantId
  guestReminderAfterMs : Int
  guestReminderMaxResends : Int
  guestReminderPresets : List String
  tempActorId : String → Nat → UserId
  getPrimaryPhoneNumber : List PhoneNumberInput → Option String
  uniqueEventPermissions : List String → List String
  getDefaultPermissionsForEventRole : Option EventRoleType → List String
  toLowerCase : String → String
  toLocaleLowerCase : String → String

structure PublicPlusOneInput where
  firstName : String
  lastName : String
  email : Option String := none
  guestNote : Option String := none
  plusOneAgeCategory : Option PlusOneAgeCategory
  phoneNumbers : List PhoneNumberInput := []
  deriving DecidableEq, Repr

structure AcceptRSVPInput where
  firstName : String
  lastName : String
  email : Option String := none
  phoneNumbers : List PhoneNumberInput
  plusOnes : List PublicPlusOneInput := []
  guestNote : Option String := none
  selectedInvitedBy : Option (List String) := none
  deriving DecidableEq, Repr

structure RSVPInput where
  invitationId : Nat
  choice : RsvpChoice
  replyInput : Option AcceptRSVPInput := none
  deriving DecidableEq, Repr

structure PublicRsvpInput where
  eventId : EventId
  firstName : String
  lastName : String
  phoneNumbers : List PhoneNumberInput
  email : Option String := none
  message : Option String := none
  guestNote : Option String := none
  selectedInvitedBy : List String := []
  plusOnes : List PublicPlusOneInput := []
  deriving DecidableEq, Repr

structure CreatePlusOneInput where
  eventId : Option EventId
  invitedByInvitationId : Option Nat
  firstName : String
  lastName : String
  email : Option String := none
  plusOneAgeCategory : Option PlusOneAgeCategory
  phoneNumbers : List PhoneNumberInput := []
  deriving DecidableEq, Repr

structure UpdatePlusOneInput where
  id : Option Nat
  firstName : String
  lastName : String
  email : Option String := none
  plusOneAgeCategory : Option PlusOneAgeCategory
  phoneNumbers : List PhoneNumberInput := []
  deriving DecidableEq, Repr

structure InvitationCreateInput where
  eventId : Option EventId
  maxInvitees : Option Int := none
  invitedByInvitationId : Option Nat := none
  firstName : String
  lastName : String
  email : Option String := none
  phoneNumbers : List PhoneNumberInput := []
  deriving DecidableEq, Repr

structure ApproveInvitationDTO where
  id : Nat
  approve : Bool
  actorId : UserId
  seatId : Option SeatId := none
  locale : Option Locale := none
  activeEventId : Option EventId := none
  deriving DecidableEq, Repr

structure ApproveInvitationDataInput where
  invitationId : Nat
  seatId : Option SeatId := none
  locale : Option Locale := none
  deriving DecidableEq, Repr

structure UpdateInvitationPlusOneLimitInput where
  id : Nat
  maxPlusOnes : Int
  deriving DecidableEq, Repr

structure RequestGuestConfirmationInput where
  eventId : EventId
  firstName : String
  lastName : String
  identifier : String
  deriving DecidableEq, Repr

/-- What the import reads of a parsed cell: `String(value)`, whether the value is
truthy, and `Number(value ?? 0)` where that is an integer. -/
structure Cell where
  string : String
  truthy : Bool
  number : Option Int
  deriving DecidableEq, Repr

/-- A parsed file: its headers and its rows, each a record keyed by header. -/
structure Sheet where
  headers : List String
  rawRows : List (List (String × Cell))
  deriving DecidableEq, Repr

structure EventAccessDTO where
  eventId : EventId
  userId : UserId
  permissions : List String
  roles : String
  occurredAt : Nat
  deriving DecidableEq, Repr

structure EventRoleAssignedDTO where
  eventId : EventId
  userId : UserId
  role : EventRoleType
  occurredAt : Nat
  deriving DecidableEq, Repr

structure EventRoleRemovedDTO where
  eventId : EventId
  userId : UserId
  occurredAt : Nat
  deriving DecidableEq, Repr

structure EventOwnerChangedDTO where
  eventId : EventId
  oldOwnerId : Option UserId
  newOwnerId : UserId
  occurredAt : Nat
  deriving DecidableEq, Repr

structure EventCreatedDTO where
  eventId : EventId
  name : Nullish String := none
  startsAt : Nullish Nat := none
  endsAt : Nullish Nat := none
  approvalMode : Nullish String := none
  allowPublicRsvp : Option Bool := none
  requireApprovalForPlusOnes : Nullish Bool := none
  scheduleTicketRelease : Nullish Bool := none
  guestConfirmationReminderEnabled : Nullish Bool := none
  guestConfirmationReminderPresets : Nullish (List String) := none
  guestConfirmationMaxResends : Nullish Int := none
  rsvpDeadline : Nullish Nat := none
  maxSeats : Nullish Int := none
  ticketReleaseAt : Nullish Nat := none
  deriving DecidableEq, Repr

structure EventUpdatedDTO where
  eventId : EventId
  name : Nullish String := none
  startsAt : Nullish Nat := none
  endsAt : Nullish Nat := none
  approvalMode : Nullish String := none
  allowPublicRsvp : Nullish Bool := none
  requireApprovalForPlusOnes : Nullish Bool := none
  scheduleTicketRelease : Nullish Bool := none
  guestConfirmationReminderEnabled : Nullish Bool := none
  guestConfirmationReminderPresets : Nullish (List String) := none
  guestConfirmationMaxResends : Nullish Int := none
  rsvpDeadline : Nullish Nat := none
  maxSeats : Nullish Int := none
  ticketReleaseAt : Nullish Nat := none
  occurredAt : Nat
  deriving DecidableEq, Repr

structure SeatReserveDTO where
  eventId : EventId
  invitationId : Nat
  actorId : Option UserId
  deriving DecidableEq, Repr

structure SeatReservedDTO where
  eventId : EventId
  invitationId : Nat
  seatId : SeatId
  actorId : Option UserId := none
  deriving DecidableEq, Repr

/-- The delayed jobs and their payloads. -/
inductive Job
  | generateTicket (invitationId : Nat) (eventId : EventId) (seatId : Option SeatId)
      (actorId : UserId) (locale : Option Locale)
  | remind (invitationId : Nat) (actorId : Option UserId) (preset : Option String)
  deriving DecidableEq, Repr

inductive Milestone | created | approved
  deriving DecidableEq, Repr

/-- The Kafka messages the service produces.  A `confirmGuest` also keeps the id and
the event of the invitation it is sent for, which its payload leaves out. -/
inductive Message
  | confirmGuest (invitationId : Nat) (eventId : EventId) (token : Nat) (eventName : String)
      (seatId : Option SeatId) (eventEndsAt : Nat) (operation : String)
  | seatReserve (payload : SeatReserveDTO)
  | milestoneRecorded (eventId : EventId) (type : Milestone) (occurredAt referenceId : Nat)
  | seatingInfoUpdated (eventId : EventId) (invitationId : Nat) (guestId : Option UserId)
      (selectedInvitedBy : List String)
  | deleteGuest (userId : UserId)
  | deleteGuestList (userIds : List UserId)
  deriving DecidableEq, Repr

/-- Everything the service is wired to: mutations, Kafka handlers and delayed jobs. -/
inductive Call
  | createInvitation (input : InvitationCreateInput) (user : UserId)
  | importInvitations (eventId : EventId) (key uploadType : String) (sheet : Option Sheet)
      (user : UserId)
  | replyInvitation (input : RSVPInput) (locale : Locale)
  | createInvitationFromRsvp (input : PublicRsvpInput) (locale : Locale)
  | createPlusOnesInvitation (input : CreatePlusOneInput) (user : UserId) (locale : Locale)
  | updatePlusOnesInvitation (input : UpdatePlusOneInput) (user : UserId)
  | removePlusOneInvitation (id : Nat) (user : UserId)
  | removeAllPlusOnesByInvitationId (parentId : Nat) (user : UserId)
  | approveInvitation (input : ApproveInvitationDTO)
  | bulkApproveInvitations (items : List ApproveInvitationDataInput) (approved : Bool)
      (user : UserId) (activeEventId : Option EventId)
  | bulkStageInvitations (ids : List Nat) (staged : Bool) (activeEventId : Option EventId)
  | updateInvitationPlusOneLimit (input : UpdateInvitationPlusOneLimitInput)
      (activeEventId : Option EventId)
  | removeInvitation (id : Nat) (activeEventId : Option EventId)
  | removeInvitations (ids : List Nat) (activeEventId : Option EventId)
  | resendGuestConfirmations (ids : List Nat) (locale : Option Locale) (user : UserId)
      (activeEventId : Option EventId)
  | requestGuestConfirmation (input : RequestGuestConfirmationInput) (locale : Locale)
  | seatReserved (payload : SeatReservedDTO)
  | seatReservationFailed (eventId : EventId) (invitationId : Nat)
  | addGuestId (invitationId : Nat) (userId : UserId)
  | deleteUserInvitations (guestId : UserId)
  | deleteEventInvitations (eventIds : List EventId)
  | userAccessChanged (payload : EventAccessDTO)
  | roleAssigned (payload : EventRoleAssignedDTO)
  | roleRemoved (payload : EventRoleRemovedDTO)
  | ownerChanged (payload : EventOwnerChangedDTO)
  | eventDeleted (eventIds : List EventId)
  | eventCreated (payload : EventCreatedDTO) (tenantHeader : Option TenantId)
  | eventUpdated (payload : EventUpdatedDTO) (tenantHeader : Option TenantId)
  | job (job : Job)
  deriving DecidableEq, Repr

/-- What a run leaves behind besides the stores. -/
inductive Effect
  | called (call : Call)
  | produced (message : Message) (actorId : Option UserId) (tenantId : TenantId)
  | scheduled (job : Job) (due : Nat)
  | granted (eventId : EventId) (userId actorId : UserId)
  | approved (id : Nat) (actorId : UserId)
  | rejected (id : Nat) (actorId : UserId)
  | resent (id : Nat)
  | reminded (id : Nat) (resent : Bool)
  | signupMarker (invitationId : Nat) (userId : UserId)
  deriving DecidableEq, Repr

inductive Lock
  | ticketGenerate (invitationId : Nat)
  | guestConfirmation (invitationId : Nat)
  deriving DecidableEq, Repr

structure Database where
  invitations : InvitationTable
  settings : EventId → Option EventSettings
  roles : EventId → UserId → Option EventRole
  access : EventId → UserId → Option EventAccess
  outbox : List OutboxRow

/-- PostgreSQL, Valkey, the clock, and the journal of effects, newest first. -/
structure World where
  db : Database
  pendingContact : Nat → Option PendingUser
  nextToken : Nat
  resendCooldown : Nat → Bool
  locks : Lock → Option Nat
  nextLock : Nat
  now : Nat
  journal : List Effect

namespace World

def empty : World where
  db := ⟨.empty, fun _ => none, fun _ _ => none, fun _ _ => none, []⟩
  pendingContact _ := none
  nextToken := 0
  resendCooldown _ := false
  locks _ := none
  nextLock := 0
  now := 0
  journal := []

abbrev row (w : World) (i : Nat) : Option Invitation := w.db.invitations.row i

def setInvitations (w : World) (t : InvitationTable) : World :=
  { w with db := { w.db with invitations := t } }

def addFacts (w : World) (o : List OutboxRow) : World :=
  { w with db := { w.db with outbox := w.db.outbox ++ o } }

/-- A payload under the next token. -/
def cachePending (w : World) (payload : PendingUser) : World :=
  { w with
    pendingContact := Function.update w.pendingContact w.nextToken (some payload)
    nextToken := w.nextToken + 1 }

def dropPending (w : World) (token : Nat) : World :=
  { w with pendingContact := Function.update w.pendingContact token none }

def log (w : World) (e : Effect) : World := { w with journal := e :: w.journal }

/-- A failed transaction: the database goes back, the cache and Kafka do not. -/
def rollback (before after : World) : World := { after with db := before.db }

section

variable (w : World) (t : InvitationTable) (e : Effect) (o o' : List OutboxRow) (p : PendingUser)
  (token : Nat)

@[simp] theorem setInvitations_row : (w.setInvitations t).row = t.row := rfl
@[simp] theorem log_row : (w.log e).row = w.row := rfl
@[simp] theorem addFacts_row : (w.addFacts o).row = w.row := rfl
@[simp] theorem cachePending_row : (w.cachePending p).row = w.row := rfl
@[simp] theorem dropPending_row : (w.dropPending token).row = w.row := rfl
@[simp] theorem setInvitations_invitations : (w.setInvitations t).db.invitations = t := rfl
@[simp] theorem setInvitations_settings : (w.setInvitations t).db.settings = w.db.settings := rfl
@[simp] theorem setInvitations_roles : (w.setInvitations t).db.roles = w.db.roles := rfl
@[simp] theorem setInvitations_access : (w.setInvitations t).db.access = w.db.access := rfl
@[simp] theorem setInvitations_outbox : (w.setInvitations t).db.outbox = w.db.outbox := rfl
@[simp] theorem setInvitations_pendingContact :
    (w.setInvitations t).pendingContact = w.pendingContact := rfl
@[simp] theorem setInvitations_nextToken : (w.setInvitations t).nextToken = w.nextToken := rfl
@[simp] theorem setInvitations_journal : (w.setInvitations t).journal = w.journal := rfl
@[simp] theorem setInvitations_now : (w.setInvitations t).now = w.now := rfl
@[simp] theorem log_db : (w.log e).db = w.db := rfl
@[simp] theorem log_pendingContact : (w.log e).pendingContact = w.pendingContact := rfl
@[simp] theorem log_nextToken : (w.log e).nextToken = w.nextToken := rfl
@[simp] theorem log_journal : (w.log e).journal = e :: w.journal := rfl
@[simp] theorem log_now : (w.log e).now = w.now := rfl
@[simp] theorem addFacts_invitations : (w.addFacts o).db.invitations = w.db.invitations := rfl
@[simp] theorem addFacts_settings : (w.addFacts o).db.settings = w.db.settings := rfl
@[simp] theorem addFacts_roles : (w.addFacts o).db.roles = w.db.roles := rfl
@[simp] theorem addFacts_access : (w.addFacts o).db.access = w.db.access := rfl
@[simp] theorem addFacts_outbox : (w.addFacts o).db.outbox = w.db.outbox ++ o := rfl
@[simp] theorem addFacts_pendingContact : (w.addFacts o).pendingContact = w.pendingContact := rfl
@[simp] theorem addFacts_nextToken : (w.addFacts o).nextToken = w.nextToken := rfl
@[simp] theorem addFacts_journal : (w.addFacts o).journal = w.journal := rfl
@[simp] theorem addFacts_now : (w.addFacts o).now = w.now := rfl
@[simp] theorem addFacts_addFacts : (w.addFacts o).addFacts o' = w.addFacts (o ++ o') := by
  simp [addFacts]
@[simp] theorem addFacts_nil : w.addFacts [] = w := by simp [addFacts]
@[simp] theorem setInvitations_self : w.setInvitations w.db.invitations = w := rfl
@[simp] theorem setInvitations_setInvitations (t' : InvitationTable) :
    (w.setInvitations t).setInvitations t' = w.setInvitations t' := rfl
@[simp] theorem addFacts_setInvitations :
    (w.addFacts o).setInvitations t = (w.setInvitations t).addFacts o := rfl
@[simp] theorem cachePending_db : (w.cachePending p).db = w.db := rfl
@[simp] theorem cachePending_nextToken : (w.cachePending p).nextToken = w.nextToken + 1 := rfl
@[simp] theorem cachePending_journal : (w.cachePending p).journal = w.journal := rfl
@[simp] theorem cachePending_now : (w.cachePending p).now = w.now := rfl
@[simp] theorem cachePending_self : (w.cachePending p).pendingContact w.nextToken = some p :=
  Function.update_self ..
@[simp] theorem dropPending_db : (w.dropPending token).db = w.db := rfl
@[simp] theorem dropPending_nextToken : (w.dropPending token).nextToken = w.nextToken := rfl
@[simp] theorem dropPending_journal : (w.dropPending token).journal = w.journal := rfl
@[simp] theorem dropPending_now : (w.dropPending token).now = w.now := rfl

end

/-- What happens without the service: time passes, and cached entries expire or are
used up. -/
inductive Environment : World → World → Prop
  | pass {w : World} {n : Nat} : w.now ≤ n → Environment w { w with now := n }
  | forget {w : World} (token : Nat) : Environment w (w.dropPending token)
  | cool {w : World} (i : Nat) : Environment w
      { w with resendCooldown := Function.update w.resendCooldown i false }
  | unlock {w : World} (l : Lock) : Environment w
      { w with locks := Function.update w.locks l none }

end World
end InvitationService

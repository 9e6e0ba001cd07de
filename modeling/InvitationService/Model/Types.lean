namespace InvitationService

/-! The ids of invitations, of cache tokens and of locks are drawn from counters, so
that a fresh one is a new one; an empty or missing identifier of the source is
`none` where it can occur.  An instant is in milliseconds since the epoch. -/

abbrev EventId := Nat
abbrev UserId := Nat
abbrev TenantId := Nat
abbrev SeatId := String
abbrev Locale := String

inductive InvitationStatus
  | pending | accepted | approvalStaged | declined | canceled | rejected | approved
  deriving DecidableEq, Repr

inductive RsvpChoice | yes | no | maybe
  deriving DecidableEq, Repr

inductive InvitationType | publicRsvp | privateInvite
  deriving DecidableEq, Repr

inductive PhoneNumberType | whatsapp | mobile | privateLine | work | home | other
  deriving DecidableEq, Repr

inductive PlusOneAgeCategory | overSix | underSix
  deriving DecidableEq, Repr

inductive EventRoleType | admin | security | guest | support | driver | usher
  deriving DecidableEq, Repr

structure PhoneNumber where
  number : String
  type : PhoneNumberType
  label : Option String
  isPrimary : Bool
  countryCode : String
  deriving DecidableEq, Repr

structure PhoneNumberInput where
  number : String
  type : PhoneNumberType
  label : Option String := none
  isPrimary : Option Bool := none
  countryCode : String
  deriving DecidableEq, Repr

/-- The `createMany` data of a submitted phone number. -/
def PhoneNumberInput.toRow (ph : PhoneNumberInput) : PhoneNumber where
  number := ph.number
  type := ph.type
  label := ph.label
  isPrimary := ph.isPrimary.getD false
  countryCode := ph.countryCode

/-- `mapPhoneNumber`. -/
def PhoneNumber.toInput (ph : PhoneNumber) : PhoneNumberInput where
  number := ph.number
  type := ph.type
  label := ph.label
  isPrimary := some ph.isPrimary
  countryCode := ph.countryCode

structure PendingPlusOne where
  invitationId : Nat
  firstName : String
  lastName : String
  email : Option String
  phoneNumbers : List PhoneNumberInput
  plusOneAgeCategory : Option PlusOneAgeCategory
  deriving DecidableEq, Repr

/-- `CreatePendingUserDTO`: what a confirmation token stands for. -/
structure PendingUser where
  firstName : String
  lastName : String
  invitationId : Nat
  email : Option String
  phoneNumbers : List PhoneNumberInput
  guestNote : Option String := none
  selectedInvitedBy : Option (List String) := none
  plusOneAgeCategory : Option PlusOneAgeCategory := none
  eventId : EventId
  eventEndsAt : Nat
  tenantId : TenantId
  locale : Locale
  actorId : UserId
  plusOnes : List PendingPlusOne := []
  seatId : Option SeatId := none
  deriving DecidableEq, Repr

/-- A row of `Invitation` together with its phone-number rows, which belong to it
and go with it.  The id and the two stamps are the database's. -/
structure Invitation where
  id : Nat := 0
  type : InvitationType
  firstName : String
  lastName : String
  eventId : EventId
  eventName : Option String := none
  eventEndsAt : Option Nat := none
  autoApproveOnAccept : Bool := false
  guestProfileId : Option UserId := none
  email : Option String := none
  phoneNumber : Option String := none
  selectedInvitedBy : List String := []
  guestNote : Option String := none
  plusOneAgeCategory : Option PlusOneAgeCategory := none
  status : InvitationStatus := .pending
  createdAt : Nat := 0
  updatedAt : Option Nat := none
  pendingContactId : Option Nat := none
  pendingContactPayload : Option PendingUser := none
  confirmationSentAt : Option Nat := none
  confirmationResendCount : Int := 0
  rsvpChoice : Option RsvpChoice := none
  rsvpAt : Option Nat := none
  approvedAt : Option Nat := none
  approvedByUserId : Option UserId := none
  maxInvitees : Int := 0
  invitedByInvitationId : Option Nat := none
  invitedByUserId : Option UserId := none
  phoneNumbers : List PhoneNumber := []
  deriving DecidableEq, Repr

/-- A field of a message that is absent, `null`, or has a value. -/
abbrev Nullish (α : Type) := Option (Option α)

/-- `EventSettingsProjection`. -/
structure EventSettings where
  tenantId : Option TenantId := none
  name : Option String := none
  startsAt : Option Nat := none
  endsAt : Option Nat := none
  approvalMode : Option String := none
  allowPublicRsvp : Bool := false
  requireApprovalForPlusOnes : Bool := true
  rsvpDeadline : Option Nat := none
  maxSeats : Option Int := none
  scheduleTicketRelease : Bool := false
  ticketReleaseAt : Option Nat := none
  guestConfirmationReminderEnabled : Bool := true
  guestConfirmationReminderPresets : List String := []
  guestConfirmationMaxResends : Option Int := none
  updatedAt : Option Nat := none
  deriving DecidableEq, Repr

/-- `EventRoleProjection`, one row at most for an event and a user. -/
structure EventRole where
  role : EventRoleType
  updatedAt : Option Nat
  deriving DecidableEq, Repr

/-- `EventAccessProjection`, one row at most for an event and a user; `roles` is
stored as it came. -/
structure EventAccess where
  permissions : List String
  roles : String
  occurredAt : Option Nat
  updatedAt : Option Nat
  deriving DecidableEq, Repr

/-- The properties of an analytics fact, each absent where the fact has none. -/
structure FactProperties where
  choice : Option RsvpChoice := none
  eventId : Option EventId := none
  plusOneCount : Option Nat := none
  invitationType : Option InvitationType := none
  isPlusOne : Option Bool := none
  source : Option String := none
  deriving DecidableEq, Repr

structure AnalyticsFact where
  eventName : String
  aggregateId : Nat
  aggregateType : String := "invitation"
  subjectId : Option UserId := none
  properties : FactProperties
  deriving DecidableEq, Repr

/-- A row of `AnalyticsOutbox` as `enqueue` writes it. -/
structure OutboxRow where
  tenantId : TenantId
  topic : String
  actorId : Option UserId
  occurredAt : Nat
  payload : AnalyticsFact
  deriving DecidableEq, Repr

/-- What a caller's context says about itself.  `tenantId` is the tenant of the
context when it is a UUID, `principalTenantId` the principal's. -/
structure Context where
  tenantId : Option TenantId := none
  principalTenantId : Option TenantId := none
  actorId : Option UserId := none
  deriving DecidableEq, Repr

inductive Dependency | database | cache | kafka | jobs | lock | eventService | storage
  deriving DecidableEq, Repr

/-- The exceptions a call can end in: those of `invitation-domain.error.ts`, and
what a dependency throws. -/
inductive Exception
  | invitationNotFound (id : Nat)
  | invitationValidation (message : String)
  | invitationAccessDenied (id : Nat) (reason : String)
  | invitationAlreadyApproved (id : Nat)
  | invitationAlreadyRejected (id : Nat)
  | rsvpNotSubmitted (id : Nat)
  | rsvpNotAccepted (id : Nat)
  | rsvpAlreadyAccepted (id : Option Nat)
  | missingGuestName (missing : List String) (id : Nat)
  | missingPendingContact (id : Nat)
  | missingRsvpContactDetails
  | missingContactMethod
  | eventAccessGrant (eventId : EventId) (userId : UserId)
  | tenantContextRequired
  | tenantHeaderRequired
  | recordNotFound
  | foreignKeyViolation
  | valueOutOfRange
  | prismaValidation
  | dependency (d : Dependency)
  deriving DecidableEq, Repr

end InvitationService

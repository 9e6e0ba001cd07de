import InvitationService.Model.Database

namespace InvitationService

open Query

namespace GuestConfirmation

/-- `GUEST_REMINDER_OFFSETS`. -/
def reminderOffset (preset : String) : Option Nat :=
  if preset = "WEEK_BEFORE" then some (7 * 24 * 60 * 60 * 1000)
  else if preset = "THREE_DAYS_BEFORE" then some (3 * 24 * 60 * 60 * 1000)
  else if preset = "HOURS_24_BEFORE" then some (24 * 60 * 60 * 1000)
  else none

def supportedLocales : List Locale := ["de-DE", "en-US"]

/-- Approved, or accepted by the guest: the statuses a confirmation may be sent in. -/
def actionable (s : InvitationStatus) : Bool := s = .approved || s = .accepted

/-- `\s+` becomes one blank. -/
def collapseSpaces (afterSpace : Bool) : List Char → List Char
  | [] => []
  | c :: cs =>
    if isSpace c then
      if afterSpace then collapseSpaces true cs else ' ' :: collapseSpaces true cs
    else c :: collapseSpaces false cs

def normalizeName (cfg : Config) (value : String) : String :=
  String.ofList (collapseSpaces false (cfg.toLocaleLowerCase (trim value)).toList)

/-- `[^\s@]+@[^\s@]+\.[^\s@]+`: a dot of the domain that is neither first nor last. -/
def isEmail (value : List Char) : Bool :=
  let user := value.takeWhile (· ≠ '@')
  let domain := (value.dropWhile (· ≠ '@')).drop 1
  value.all (fun c => !isSpace c) && !user.isEmpty && '@' ∈ value && !('@' ∈ domain) &&
    '.' ∈ (domain.drop 1).dropLast

def normalizeEmail (cfg : Config) (value : String) : Option String :=
  let normalized := cfg.toLowerCase (trim value)
  if isEmail normalized.toList then some normalized else none

def normalizePhone (value : String) : Option String :=
  let digits := value.toList.filter Char.isDigit
  if (trim value).toList.head? = some '+' && 8 ≤ digits.length && digits.length ≤ 15 then
    some (String.ofList ('+' :: digits))
  else none

inductive ResendReason
  | alreadyRegistered | invalidStatus | eventEnded | missingPayload | rateLimited
  deriving DecidableEq, Repr

/-- `ResendConfirmationResult`: resent, or the reason why not. -/
inductive ResendConfirmationResult
  | resent
  | skipped (reason : ResendReason)
  deriving DecidableEq, Repr

def ResendConfirmationResult.isResent : ResendConfirmationResult → Bool
  | .resent => true
  | .skipped _ => false

def overrideLocale (payload : PendingUser) (locale : Option Locale) : PendingUser :=
  match locale with
  | some l => if l ∈ supportedLocales then { payload with locale := l } else payload
  | none => payload

def resolvePendingContactPayload (invitation : Invitation) : Program (Option PendingUser) :=
  match invitation.pendingContactPayload, invitation.pendingContactId with
  | some stored, _ => return some stored
  | none, none => return none
  | none, some token => cacheGet token

def persistSend (i token : Nat) (payload : PendingUser) (incrementResend : Bool) :
    Query Unit := do
  let now ← clock
  let _ ← updateInvitation i {
    pendingContactId := some (some token)
    pendingContactPayload := some (some payload)
    confirmationSentAt := some (some now)
    confirmationResendCount := if incrementResend then some (.increment 1) else none }

variable (cfg : Config) (ctx : Context)

def emitConfirmGuest (invitation : Invitation) (token : Nat) (seatId : Option SeatId)
    (actorId : Option UserId) (operation : String) : Query Unit := do
  let now ← clock
  send cfg ctx (.confirmGuest invitation.id invitation.eventId token
    (invitation.eventName.getD "") seatId (invitation.eventEndsAt.getD now) operation) actorId

/-- The presets whose moment is still ahead, each with its delay. -/
def scheduledPresets (startsAt now : Nat) (presets : List String) : List (String × Nat) :=
  presets.filterMap fun preset => do
    let offset ← reminderOffset preset
    if now + offset < startsAt then some (preset, startsAt - offset - now) else none

/-- The settings of the invitation's event, if the invitation exists. -/
def settingsOf (invitation : Option Invitation) : Program (Option EventSettings) :=
  match invitation with
  | some r => liftM (findSettings r.eventId)
  | none => return none

def scheduleReminders (i : Nat) (actorId : Option UserId) : Program Unit := do
  let invitation ← findInvitation i
  let settings ← settingsOf invitation
  let now ← clock
  match settings.bind fun s => if s.guestConfirmationReminderEnabled &&
      !s.guestConfirmationReminderPresets.isEmpty then s.startsAt.map (s, ·) else none with
  | some (s, startsAt) =>
    (scheduledPresets startsAt now s.guestConfirmationReminderPresets).forM
      fun (preset, delayMs) => liftM (schedule (.remind i actorId (some preset)) delayMs)
  | none =>
    if cfg.guestReminderAfterMs ≤ 0 then return
    schedule (.remind i actorId none) cfg.guestReminderAfterMs.toNat

def sendFirstConfirmation (i : Nat) (seatId : Option SeatId) (actorId : Option UserId)
    (locale : Option Locale) : Program Bool := do
  match ← findInvitation i with
  | none => return false
  | some invitation =>
    if invitation.guestProfileId.isSome then return false
    if !actionable invitation.status then return false
    if invitation.pendingContactId.isNone then return false
    match ← resolvePendingContactPayload invitation with
    | none => return false
    | some stored =>
      let payload := overrideLocale stored locale
      let token ← cacheSet payload
      persistSend i token payload false
      emitConfirmGuest cfg ctx invitation token seatId actorId "Send confirm guest notification"
      scheduleReminders cfg i actorId
      return true

def requestSeatReservation (i : Nat) (actorId : Option UserId) : Program Bool := do
  match ← findInvitation i with
  | none => return false
  | some invitation =>
    if invitation.guestProfileId.isSome then return false
    if !actionable invitation.status then return false
    send cfg ctx (.seatReserve ⟨invitation.eventId, i, actorId⟩) actorId
    return true

def sendFirstConfirmationOrReserve (i : Nat) (seatId : Option SeatId) (actorId : Option UserId)
    (locale : Option Locale) : Program Bool :=
  if truthy seatId then sendFirstConfirmation cfg ctx i seatId actorId locale
  else requestSeatReservation cfg ctx i actorId

def recordResentAnalytics (i : Nat) : Program Unit :=
  Query.transaction <| enqueue ctx "guest.confirmation.resent.v1"
    { eventName := "GuestConfirmationResent", aggregateId := i, properties := {} }

def resendConfirmation (i : Nat) (actorId : Option UserId) (locale : Option Locale) :
    Program ResendConfirmationResult := do
  match ← findInvitation i with
  | none => throw (.invitationNotFound i)
  | some invitation =>
    if invitation.guestProfileId.isSome then return .skipped .alreadyRegistered
    if !actionable invitation.status then return .skipped .invalidStatus
    let now ← clock
    if invitation.eventEndsAt.any (· ≤ now) then return .skipped .eventEnded
    match invitation.pendingContactPayload with
    | none => return .skipped .missingPayload
    | some stored =>
      let payload := overrideLocale stored locale
      -- the cooldown is read and set in two steps, and only the reminder job holds a lock
      if ← inResendCooldown i then return .skipped .rateLimited
      setResendCooldown i
      if truthy payload.seatId then
        let token ← cacheSet payload
        persistSend i token payload true
        emitConfirmGuest cfg ctx invitation token payload.seatId actorId
          "Resend confirm guest notification"
      else
        -- `handleReserved` sends the confirmation later, as a first one
        let _ ← requestSeatReservation cfg ctx i actorId
      recordResentAnalytics ctx i
      note (.resent i)
      return .resent

/-- `matches` of `requestPublicResend`: the name, and the e-mail address or, for an
identifier that is none, a phone number. -/
def matchesIdentity (firstName lastName : String) (email phone : Option String)
    (invitation : Invitation) : Bool :=
  normalizeName cfg invitation.firstName = firstName &&
    normalizeName cfg invitation.lastName = lastName &&
    match email with
    | some _ => invitation.email.map (fun e => cfg.toLowerCase (trim e)) = email
    | none =>
      (invitation.phoneNumber.toList ++
          invitation.phoneNumbers.map fun ph => ph.countryCode ++ ph.number).any
        fun entry => entry ≠ "" && normalizePhone entry = phone

/-- Who a public request may be about. -/
def publicCandidate (eventId : EventId) (invitation : Invitation) : Bool :=
  invitation.eventId = eventId && invitation.guestProfileId.isNone && actionable invitation.status

def requestPublicResend (input : RequestGuestConfirmationInput) (locale : Locale) :
    Program Unit := do
  let email := normalizeEmail cfg input.identifier
  let phone := if email.isSome then none else normalizePhone input.identifier
  if email.isNone && phone.isNone then return
  let firstName := normalizeName cfg input.firstName
  let lastName := normalizeName cfg input.lastName
  if firstName = "" || lastName = "" then return
  let candidates ← findManyInvitations (publicCandidate input.eventId)
  match candidates.filter (matchesIdentity cfg firstName lastName email phone) with
  | [invitation] =>
    let _ ← resendConfirmation cfg ctx invitation.id none (some locale)
  | _ => return

end GuestConfirmation
end InvitationService

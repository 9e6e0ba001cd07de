import InvitationService.Model.AdminWrite

namespace InvitationService

open Query
open Resumption (Prog)

structure RSVPDecision where
  newChoice : RsvpChoice
  newStatus : InvitationStatus
  needsContactDetails : Bool
  deriving DecidableEq, Repr

/-- `RsvpDomain.decide`. -/
def RsvpDomain.decide (previousChoice : Option RsvpChoice) (newChoice : RsvpChoice)
    (hasContactDetails : Bool) : Except Exception RSVPDecision := do
  if previousChoice = some newChoice then
    if newChoice = .yes then throw (.rsvpAlreadyAccepted none)
    if newChoice = .no then throw (.invitationValidation "Invitation was already declined")
  match newChoice with
  | .no => return ⟨.no, .declined, false⟩
  | .maybe => return ⟨.maybe, .pending, false⟩
  | .yes => return ⟨.yes, .accepted, hasContactDetails⟩

/-- `xs.slice(0, n)`: a negative end counts from the back. -/
def slicePrefix (n : Int) (xs : List α) : List α :=
  if 0 ≤ n then xs.take n.toNat else xs.take (xs.length - n.natAbs)

namespace GuestWrite

def validatePlusOne (p : PublicPlusOneInput) : Except Exception Unit := do
  if p.firstName = "" || p.lastName = "" then
    throw (.invitationValidation "Plus-one firstName and lastName are required")
  if p.plusOneAgeCategory.isNone then
    throw (.invitationValidation "Plus-one age category is required")

/-- What `reply` has decided before its transaction. -/
structure ReplyPlan where
  decision : RSVPDecision
  resultingStatus : InvitationStatus
  allowedPlusOnes : List PublicPlusOneInput
  deriving DecidableEq, Repr

/-- The checks of `reply` on the row it read. -/
def planReply (invitation : Invitation) (input : RSVPInput) : Except Exception ReplyPlan := do
  if invitation.rsvpChoice = some .yes || invitation.rsvpChoice = some .no then
    throw (.rsvpAlreadyAccepted (some input.invitationId))
  let decision ← RsvpDomain.decide invitation.rsvpChoice input.choice input.replyInput.isSome
  let resultingStatus :=
    if invitation.status = .approvalStaged && decision.newChoice = .yes then .approvalStaged
    else decision.newStatus
  if decision.newChoice = .yes then
    match input.replyInput with
    | none => throw .missingRsvpContactDetails
    | some replyInput =>
      if !hasValidPhoneNumber replyInput.phoneNumbers then throw .missingContactMethod
      let allowedPlusOnes := slicePrefix invitation.maxInvitees replyInput.plusOnes
      allowedPlusOnes.forM validatePlusOne
      return ⟨decision, resultingStatus, allowedPlusOnes⟩
  else return ⟨decision, resultingStatus, []⟩

def pendingPlusOne (p : Invitation) : PendingPlusOne where
  invitationId := p.id
  firstName := p.firstName
  lastName := p.lastName
  email := p.email
  phoneNumbers := p.phoneNumbers.map (·.toInput)
  plusOneAgeCategory := p.plusOneAgeCategory

def rsvpFact (eventName : String) (r : Invitation) (properties : FactProperties) :
    AnalyticsFact where
  eventName
  aggregateId := r.id
  subjectId := r.guestProfileId
  properties

variable (cfg : Config) (ctx : Context)

def publishInvitationCreated (invitation : Invitation) : Query Unit :=
  send cfg ctx (.milestoneRecorded invitation.eventId .created invitation.createdAt invitation.id)
    ctx.actorId

def publishSeatingInfoUpdated (eventId : EventId) (invitation : Invitation)
    (selectedInvitedBy : List String) : Query Unit :=
  send cfg ctx (.seatingInfoUpdated eventId invitation.id invitation.guestProfileId
    selectedInvitedBy) ctx.actorId

def replyPlusOne (invitation : Invitation) (now : Nat) (selectedInvitedBy : List String)
    (p : PublicPlusOneInput) : Invitation where
  type := .privateInvite
  eventId := invitation.eventId
  firstName := p.firstName
  lastName := p.lastName
  email := p.email
  status := .accepted
  rsvpChoice := some .yes
  rsvpAt := some now
  invitedByInvitationId := some invitation.id
  plusOneAgeCategory := p.plusOneAgeCategory
  phoneNumber := cfg.getPrimaryPhoneNumber p.phoneNumbers
  selectedInvitedBy
  phoneNumbers := p.phoneNumbers.map (·.toRow)

def replyUpdate (invitation : Invitation) (plan : ReplyPlan) (now : Nat)
    (replyInput : Option AcceptRSVPInput) : InvitationUpdate where
  rsvpChoice := some (some plan.decision.newChoice)
  status := some plan.resultingStatus
  rsvpAt := some (some now)
  firstName := some ((replyInput.map (·.firstName)).getD invitation.firstName)
  lastName := some ((replyInput.map (·.lastName)).getD invitation.lastName)
  phoneNumber := some
    (replyInput.bind (fun r => cfg.getPrimaryPhoneNumber r.phoneNumbers) <|> invitation.phoneNumber)
  email := some (replyInput.bind (·.email) <|> invitation.email)
  guestNote := some (normalizeOptionalText (replyInput.bind (·.guestNote)))
  selectedInvitedBy :=
    some ((replyInput.bind (·.selectedInvitedBy)).getD invitation.selectedInvitedBy)

@[simp] theorem replyUpdate_maxInvitees {invitation : Invitation} {plan : ReplyPlan} {now : Nat}
    {replyInput : Option AcceptRSVPInput} :
    (replyUpdate cfg invitation plan now replyInput).maxInvitees = none := (rfl)

def replyPendingUser (invitation : Invitation) (replyInput : AcceptRSVPInput)
    (createdPlusOnes : List Invitation) (locale : Locale) (now : Nat) : PendingUser where
  firstName := replyInput.firstName
  lastName := replyInput.lastName
  invitationId := invitation.id
  email := replyInput.email
  phoneNumbers := replyInput.phoneNumbers
  guestNote := normalizeOptionalText replyInput.guestNote
  eventId := invitation.eventId
  eventEndsAt := invitation.eventEndsAt.getD now
  tenantId := currentTenantId cfg ctx
  locale
  actorId := cfg.tempActorId "guest-rsvp" invitation.id
  plusOnes := createdPlusOnes.map pendingPlusOne

/-- The new pending contact of row `i`: the payload under a fresh token, both fields at once. -/
def attachPendingContact (i : Nat) (pendingUser : PendingUser) : Query Invitation := do
  let pendingContactId ← cacheSet pendingUser
  updateInvitation i {
    pendingContactId := some (some pendingContactId)
    pendingContactPayload := some (some pendingUser) }

/-- The facts of an RSVP; `yes` and `no` are facts of their own. -/
def enqueueReply (updated : Invitation) (isUpdate : Bool) (choice : RsvpChoice)
    (plusOneCount : Nat) : Query Unit := do
  enqueue ctx (if isUpdate then "invitation.rsvp.updated.v1" else "invitation.rsvp.submitted.v1")
    (rsvpFact (if isUpdate then "RsvpUpdated" else "RsvpSubmitted") updated {
      choice := some choice
      eventId := some updated.eventId
      plusOneCount := some plusOneCount })
  if choice ≠ .maybe then
    enqueue ctx (if choice = .yes then "invitation.accepted.v1" else "invitation.declined.v1")
      (rsvpFact (if choice = .yes then "InvitationAccepted" else "InvitationDeclined") updated {
        eventId := some updated.eventId
        isPlusOne := some updated.invitedByInvitationId.isSome })

/-- The transaction of `reply`: the row, its plus-ones, the pending contact, the facts. -/
def replyTransaction (invitation : Invitation) (plan : ReplyPlan) (now : Nat) (input : RSVPInput)
    (locale : Locale) : Query (Invitation × List Invitation) := do
  let i := input.invitationId
  let selectedInvitedBy :=
    (input.replyInput.bind (·.selectedInvitedBy)).getD invitation.selectedInvitedBy
  let updatedInvitation ← updateInvitation i (replyUpdate cfg invitation plan now input.replyInput)
  let createdPlusOnes ← plan.allowedPlusOnes.mapM' fun p =>
    createInvitation (replyPlusOne cfg invitation now selectedInvitedBy p)
  if plan.decision.needsContactDetails then
    match input.replyInput with
    | none => throw .missingRsvpContactDetails
    | some replyInput =>
      let endsAt ← clock
      -- a rollback does not take the contact out of the cache
      let _ ← attachPendingContact i
        (replyPendingUser cfg ctx invitation replyInput createdPlusOnes locale endsAt)
  enqueueReply ctx updatedInvitation invitation.rsvpChoice.isSome plan.decision.newChoice
    createdPlusOnes.length
  return (updatedInvitation, createdPlusOnes)

def autoApprovesOnAccept (invitation : Invitation) (settings : Option EventSettings) : Bool :=
  invitation.autoApproveOnAccept ||
    shouldAutoApproveInvitation (settings.bind (·.approvalMode)) invitation.type

/-- The row of the reply, and whether plus-ones were left out. -/
def reply (input : RSVPInput) (locale : Locale) : Program (Invitation × Bool) := do
  let id := input.invitationId
  let invitation ← ensureExists id
  let settings ← findSettings invitation.eventId
  let plan ← Prog.ret (planReply invitation input)
  let now ← clock
  -- the transaction does not read the row again: its update goes by the id alone
  let (result, createdPlusOnes) ←
    Query.transaction (replyTransaction cfg ctx invitation plan now input locale)
  let plusOnes := (input.replyInput.map (·.plusOnes)).getD []
  let truncated : Bool := (plusOnes.length : Int) > invitation.maxInvitees
  let selectedInvitedBy :=
    (input.replyInput.bind (·.selectedInvitedBy)).getD invitation.selectedInvitedBy
  (result :: createdPlusOnes).forM fun r =>
    liftM (publishSeatingInfoUpdated cfg ctx invitation.eventId r selectedInvitedBy)
  if plan.decision.newChoice = .yes && autoApprovesOnAccept invitation settings &&
      invitation.status ≠ .approvalStaged then
    match invitation.invitedByUserId with
    | none => throw (.invitationValidation "Automatic approval configuration is incomplete")
    | some approvingActor =>
      let approved ← AdminWrite.approve cfg ctx {
        id
        approve := true
        actorId := approvingActor
        activeEventId := some invitation.eventId }
      return (approved, truncated)
  else return (result, truncated)

/-- `InvitationEventRoleResolver.getPermissionsForUser`. -/
def getPermissionsForUser (u : UserId) (e : EventId) : Query (List String) := do
  match ← findAccess e u with
  | some access => return cfg.uniqueEventPermissions access.permissions
  | none =>
    let row ← findRole e u
    return cfg.getDefaultPermissionsForEventRole (row.map (·.role))

def managePlusOnes : String := "plus_ones.manage"

/-- Whether the caller manages the parent as staff; its guest and its creator need no
permission. -/
def ensureUserCanManageParentInvitation (parentId : Nat) (userId : Option UserId) :
    Query Bool := do
  match userId with
  | none => throw (.invitationAccessDenied parentId "authentication-required")
  | some u =>
    let parent ← ensureExists parentId
    if parent.guestProfileId = some u || parent.invitedByUserId = some u then return false
    let permissions ← getPermissionsForUser cfg u parent.eventId
    if managePlusOnes ∈ permissions then return true
    else throw (.invitationAccessDenied parentId "plus-one-management-forbidden")

def validatePhoneNumber (ph : PhoneNumberInput) : Except Exception Unit :=
  if ph.number = "" || ph.countryCode = "" then
    throw (.invitationValidation "Phone number is invalid")
  else return

def validateNames (firstName lastName : String) (plusOneAgeCategory : Option PlusOneAgeCategory)
    (phoneNumbers : List PhoneNumberInput) : Except Exception Unit := do
  if firstName = "" || lastName = "" then
    throw (.invitationValidation "Plus-one firstName and lastName are required")
  if plusOneAgeCategory.isNone then
    throw (.invitationValidation "Plus-one age category is required")
  phoneNumbers.forM validatePhoneNumber

/-- The ids of a request for a plus-one: its event and its parent. -/
def createPlusOneIds (input : CreatePlusOneInput) : Except Exception (EventId × Nat) :=
  match input.eventId, input.invitedByInvitationId with
  | some e, some p => return (e, p)
  | _, _ => throw (.invitationValidation "Required invitation fields are missing")

def plusOneChild (input : CreatePlusOneInput) (eventId : EventId) (parentId : Nat)
    (actorId : UserId) (autoApprove : Bool) (now : Nat) : Invitation where
  type := .privateInvite
  eventId
  invitedByInvitationId := some parentId
  invitedByUserId := some actorId
  firstName := input.firstName
  lastName := input.lastName
  email := input.email
  plusOneAgeCategory := input.plusOneAgeCategory
  status := if autoApprove then .accepted else .pending
  rsvpChoice := if autoApprove then some .yes else none
  rsvpAt := if autoApprove then some now else none
  maxInvitees := 0
  phoneNumber := cfg.getPrimaryPhoneNumber input.phoneNumbers
  phoneNumbers := input.phoneNumbers.map (·.toRow)

def plusOnePendingUser (input : CreatePlusOneInput) (eventId : EventId) (childId : Nat)
    (eventEndsAt : Nat) (actorId : UserId) (locale : Locale) : PendingUser where
  firstName := input.firstName
  lastName := input.lastName
  invitationId := childId
  email := input.email
  phoneNumbers := input.phoneNumbers
  plusOneAgeCategory := input.plusOneAgeCategory
  eventId
  eventEndsAt
  tenantId := currentTenantId cfg ctx
  locale
  actorId

def createPlusOneTransaction (input : CreatePlusOneInput) (eventId : EventId) (parentId : Nat)
    (actorId : UserId) (locale : Locale) : Query (Invitation × Bool) := do
  let parent ← ensureExists parentId
  if parent.eventId ≠ eventId then
    throw (.invitationValidation "Invitation event does not match")
  let staffManaged ← ensureUserCanManageParentInvitation cfg parentId (some actorId)
  if staffManaged && !truthy input.email && !hasValidPhoneNumber input.phoneNumbers then
    throw .missingContactMethod
  let count ← updateManyInvitations parentId (fun r => r.eventId = eventId && 0 < r.maxInvitees)
    { maxInvitees := some (.increment (-1)) }
  if count ≠ 1 then throw (.invitationValidation "No plus-one capacity remains")
  let settings ← findSettings eventId
  let now ← clock
  let autoApprove := staffManaged || (parent.status = .approved &&
    shouldAutoApprovePlusOnes (settings.map (·.requireApprovalForPlusOnes)))
  let child ← createInvitation (plusOneChild cfg input eventId parentId actorId autoApprove now)
  let endsAt ← clock
  let updatedChild ← attachPendingContact child.id
    (plusOnePendingUser cfg ctx input eventId child.id (parent.eventEndsAt.getD endsAt) actorId
      locale)
  enqueue ctx "invitation.created.v1"
    (AdminWrite.invitationCreated updatedChild (some actorId) true)
  return (updatedChild, autoApprove)

def createPlusOne (input : CreatePlusOneInput) (actorId : UserId) (locale : Locale) :
    Program Invitation := do
  let (eventId, parentId) ← Prog.ret (createPlusOneIds input)
  Prog.ret (validateNames input.firstName input.lastName input.plusOneAgeCategory
    input.phoneNumbers)
  let (result, autoApprove) ← Query.transaction
    (createPlusOneTransaction cfg ctx input eventId parentId actorId locale)
  publishInvitationCreated cfg ctx result
  if autoApprove then
    AdminWrite.approve cfg ctx {
      id := result.id
      approve := true
      actorId
      activeEventId := some eventId }
  else return result

def parentOfPlusOne (child : Invitation) : Except Exception Nat :=
  match child.invitedByInvitationId with
  | some p => return p
  | none => throw (.invitationValidation "Invitation is not a plus-one")

def updatePlusOne (input : UpdatePlusOneInput) (userId : UserId) : Program Invitation := do
  match input.id with
  | none => throw (.invitationValidation "Plus-one invitation ID is required")
  | some id =>
    Prog.ret (validateNames input.firstName input.lastName input.plusOneAgeCategory
      input.phoneNumbers)
    Query.transaction do
      let existing ← ensureExists id
      let parentId ← Prog.ret (parentOfPlusOne existing)
      let _ ← ensureUserCanManageParentInvitation cfg parentId (some userId)
      updateInvitation existing.id {
        firstName := some input.firstName
        lastName := some input.lastName
        email := some input.email
        plusOneAgeCategory := some input.plusOneAgeCategory
        phoneNumber := some (cfg.getPrimaryPhoneNumber input.phoneNumbers)
        phoneNumbers := some (input.phoneNumbers.map (·.toRow)) }

/-- The cached contact of a row that is deleted goes too. -/
def dropPendingContact (r : Invitation) : Query Unit :=
  match r.pendingContactId with
  | some token => cacheDelete token
  | none => return

def publishGuestDeleted (r : Invitation) (actorId : UserId) : Query Unit :=
  match r.guestProfileId with
  | some guestId => send cfg ctx (.deleteGuest guestId) (some actorId)
  | none => return

def deletePlusOne (id : Nat) (actorId : UserId) : Program Invitation :=
  Query.transaction do
    let child ← ensureExists id
    let parentId ← Prog.ret (parentOfPlusOne child)
    let _ ← ensureUserCanManageParentInvitation cfg parentId (some actorId)
    -- neither the cache nor Kafka takes part in the transaction
    dropPendingContact child
    let deleted ← deleteInvitation id
    let _ ← updateInvitation parentId { maxInvitees := some (.increment 1) }
    publishGuestDeleted cfg ctx child actorId
    return deleted

/-- Delete the plus-ones in turn, each after its cached contact. -/
def deleteChild (c : Invitation) : Query Invitation := do
  dropPendingContact c
  deleteInvitation c.id

def deleteAllPlusOnes (parentId : Nat) (actorId : UserId) : Program (List Invitation) :=
  Query.transaction do
    let parent ← ensureExists parentId
    let _ ← ensureUserCanManageParentInvitation cfg parentId (some actorId)
    let children ← findManyInvitations fun r =>
      r.invitedByInvitationId = some parentId && r.eventId = parent.eventId
    let fullChildren ← children.mapM' deleteChild
    let _ ← updateInvitation parentId { maxInvitees := some (.increment children.length) }
    let plusOneIds := children.filterMap (·.guestProfileId)
    if !plusOneIds.isEmpty then send cfg ctx (.deleteGuestList plusOneIds) (some actorId)
    return fullChildren

/-- The invitation a public RSVP creates for the guest who submits it. -/
def publicInvitee (input : PublicRsvpInput) (settings : Option EventSettings)
    (selectedInvitedBy : List String) (guestNote : Option String) (now : Nat) : Invitation where
  type := .publicRsvp
  eventId := input.eventId
  eventName := settings.bind (·.name)
  eventEndsAt := settings.bind (·.endsAt)
  autoApproveOnAccept := shouldAutoApproveInvitation (settings.bind (·.approvalMode)) .publicRsvp
  firstName := input.firstName
  lastName := input.lastName
  email := input.email
  status := .accepted
  rsvpChoice := some .yes
  rsvpAt := some now
  maxInvitees := input.plusOnes.length
  selectedInvitedBy
  guestNote
  phoneNumber := cfg.getPrimaryPhoneNumber input.phoneNumbers
  phoneNumbers := input.phoneNumbers.map (·.toRow)

def publicPlusOne (input : PublicRsvpInput) (inviteeId : Nat) (selectedInvitedBy : List String)
    (now : Nat) (p : PublicPlusOneInput) : Invitation where
  type := .publicRsvp
  eventId := input.eventId
  firstName := p.firstName
  lastName := p.lastName
  status := .accepted
  rsvpChoice := some .yes
  rsvpAt := some now
  invitedByInvitationId := some inviteeId
  email := p.email
  guestNote := normalizeOptionalText p.guestNote
  plusOneAgeCategory := p.plusOneAgeCategory
  selectedInvitedBy
  phoneNumber := cfg.getPrimaryPhoneNumber p.phoneNumbers
  phoneNumbers := p.phoneNumbers.map (·.toRow)

def publicFact (eventName : String) (r : Invitation) (properties : FactProperties) :
    AnalyticsFact where
  eventName
  aggregateId := r.id
  properties

def createPublicPlusOne (input : PublicRsvpInput) (inviteeId : Nat)
    (selectedInvitedBy : List String) (p : PublicPlusOneInput) : Query Invitation := do
  let now ← clock
  let created ← createInvitation (publicPlusOne cfg input inviteeId selectedInvitedBy now p)
  enqueue ctx "invitation.created.v1" (AdminWrite.invitationCreated created none true)
  enqueue ctx "invitation.accepted.v1" (publicFact "InvitationAccepted" created {
    eventId := some created.eventId
    isPlusOne := some true })
  return created

def publicRsvpTransaction (input : PublicRsvpInput) (settings : Option EventSettings)
    (selectedInvitedBy : List String) (guestNote : Option String) :
    Query (Invitation × List Invitation) := do
  let now ← clock
  let invitee ← createInvitation (publicInvitee cfg input settings selectedInvitedBy guestNote now)
  let plusOneInvitations ← (input.plusOnes.filter fun p => p.firstName ≠ "" && p.lastName ≠ "")
    |>.mapM' (createPublicPlusOne cfg ctx input invitee.id selectedInvitedBy)
  enqueue ctx "invitation.created.v1" (AdminWrite.invitationCreated invitee none false)
  enqueue ctx "invitation.rsvp.submitted.v1" (publicFact "RsvpSubmitted" invitee {
    choice := some .yes
    eventId := some invitee.eventId
    plusOneCount := some plusOneInvitations.length })
  enqueue ctx "invitation.accepted.v1" (publicFact "InvitationAccepted" invitee {
    eventId := some invitee.eventId
    isPlusOne := some false })
  return (invitee, plusOneInvitations)

def publicPendingUser (input : PublicRsvpInput) (invitee : Invitation)
    (plusOneInvitations : List Invitation) (selectedInvitedBy : List String)
    (guestNote : Option String) (locale : Locale) (now : Nat) : PendingUser where
  firstName := input.firstName
  lastName := input.lastName
  invitationId := invitee.id
  email := input.email
  phoneNumbers := input.phoneNumbers
  selectedInvitedBy := some selectedInvitedBy
  guestNote
  eventId := input.eventId
  eventEndsAt := invitee.eventEndsAt.getD now
  tenantId := currentTenantId cfg ctx
  locale
  actorId := cfg.tempActorId "guest-plusone" invitee.id
  plusOnes := plusOneInvitations.map pendingPlusOne

def createFromPublicRsvp (input : PublicRsvpInput) (locale : Locale) : Program Invitation := do
  if !hasValidPhoneNumber input.phoneNumbers then throw .missingContactMethod
  Prog.ret (input.plusOnes.forM validatePlusOne)
  let guestNote := normalizeOptionalText input.guestNote <|> normalizeOptionalText input.message
  let selectedInvitedBy := (input.selectedInvitedBy.map trim).eraseDups.filter (· ≠ "")
  let settings ← findSettings input.eventId
  let (invitee, plusOneInvitations) ← Query.transaction
    (publicRsvpTransaction cfg ctx input settings selectedInvitedBy guestNote)
  let now ← clock
  let pendingContactId ← cacheSet
    (publicPendingUser cfg ctx input invitee plusOneInvitations selectedInvitedBy guestNote locale
      now)
  let updated ← updateInvitation invitee.id {
    pendingContactId := some (some pendingContactId)
    pendingContactPayload := some (some (publicPendingUser cfg ctx input invitee
      plusOneInvitations selectedInvitedBy guestNote locale now)) }
  publishInvitationCreated cfg ctx updated
  (updated :: plusOneInvitations).forM fun r =>
    liftM (publishSeatingInfoUpdated cfg ctx input.eventId r selectedInvitedBy)
  if updated.autoApproveOnAccept then
    AdminWrite.approve cfg ctx {
      id := updated.id
      approve := true
      actorId := cfg.tempActorId "system-auto-approval" updated.id
      activeEventId := some input.eventId }
  else return updated

end GuestWrite
end InvitationService

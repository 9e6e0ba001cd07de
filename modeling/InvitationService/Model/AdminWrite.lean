import InvitationService.Model.GuestConfirmation
import InvitationService.Model.Import

namespace InvitationService

open Query

/-- `approval-mode.ts`. -/
def shouldAutoApproveInvitation (approvalMode : Option String) (type : InvitationType) : Bool :=
  approvalMode = some "AUTO" ||
    (approvalMode = some "AUTO_PUBLIC_ONLY" && type = .publicRsvp) ||
    (approvalMode = some "AUTO_INVITE_ONLY" && type = .privateInvite)

def shouldAutoApprovePlusOnes (requireApprovalForPlusOnes : Option Bool) : Bool :=
  requireApprovalForPlusOnes = some false

namespace AdminWrite

/-- `assertInvitationMatchesActiveEvent`. -/
def assertMatchesActiveEvent (invitationEventId : EventId) (activeEventId : Option EventId) :
    Query Unit :=
  match activeEventId with
  | none => throw (.invitationValidation "Active event context is required")
  | some e =>
    if invitationEventId = e then return
    else throw (.invitationValidation "Invitation does not belong to active event")

variable (cfg : Config) (ctx : Context)

def publishMilestone (eventId : EventId) (type : Milestone) (occurredAt referenceId : Nat)
    (actorId : Option UserId) : Query Unit :=
  send cfg ctx (.milestoneRecorded eventId type occurredAt referenceId) (actorId <|> ctx.actorId)

/-- The fact every new invitation is announced with. -/
def invitationCreated (r : Invitation) (subjectId : Option UserId) (isPlusOne : Bool)
    (source : Option String := none) : AnalyticsFact where
  eventName := "InvitationCreated"
  aggregateId := r.id
  subjectId := subjectId
  properties := {
    eventId := some r.eventId
    invitationType := some r.type
    isPlusOne := some isPlusOne
    source }

def createdInvitation (input : InvitationCreateInput) (eventId : EventId)
    (settings : Option EventSettings) (eventAdminId : Option UserId) : Invitation where
  type := .privateInvite
  eventId
  eventName := settings.bind (·.name)
  eventEndsAt := settings.bind (·.endsAt)
  autoApproveOnAccept :=
    shouldAutoApproveInvitation (settings.bind (·.approvalMode)) .privateInvite
  firstName := input.firstName
  lastName := input.lastName
  invitedByInvitationId := input.invitedByInvitationId
  invitedByUserId := eventAdminId
  maxInvitees := input.maxInvitees.getD 0
  status := .pending
  phoneNumber := cfg.getPrimaryPhoneNumber input.phoneNumbers
  email := input.email
  phoneNumbers := input.phoneNumbers.map (·.toRow)

def create (input : InvitationCreateInput) (eventAdminId : Option UserId) :
    Program Invitation := do
  match input.eventId with
  | none => throw (.invitationValidation "Event ID is required")
  | some eventId =>
    if input.maxInvitees.any (· < 0) then
      throw (.invitationValidation "maxInvitees must be non-negative")
    let settings ← findSettings eventId
    let created ← Query.transaction do
      let invitation ←
        createInvitation (createdInvitation cfg input eventId settings eventAdminId)
      enqueue ctx "invitation.created.v1"
        (invitationCreated invitation eventAdminId invitation.invitedByInvitationId.isSome)
      return invitation
    publishMilestone cfg ctx created.eventId .created created.createdAt created.id eventAdminId
    return created

/-- What follows an approval: the ticket job when the release is still ahead, the
confirmation or a seat reservation otherwise. -/
def confirmApproval (input : ApproveInvitationDTO) (updated : Invitation)
    (settings : Option EventSettings) : Program Unit := do
  let missing := (if updated.firstName = "" then ["firstName"] else []) ++
    (if updated.lastName = "" then ["lastName"] else [])
  if !missing.isEmpty then throw (.missingGuestName missing input.id)
  if updated.pendingContactId.isNone then throw (.missingPendingContact input.id)
  let now ← clock
  match settings.bind fun s => if s.scheduleTicketRelease then s.ticketReleaseAt else none with
  | some releaseAt =>
    if now < releaseAt then
      schedule (.generateTicket input.id updated.eventId input.seatId input.actorId input.locale)
        (releaseAt - now)
    else
      let _ ← GuestConfirmation.sendFirstConfirmationOrReserve cfg ctx input.id input.seatId
        (some input.actorId) input.locale
  | none =>
    let _ ← GuestConfirmation.sendFirstConfirmationOrReserve cfg ctx input.id input.seatId
      (some input.actorId) input.locale

def approveGuard (input : ApproveInvitationDTO) (invitation : Invitation) : Query Unit := do
  assertMatchesActiveEvent invitation.eventId input.activeEventId
  if invitation.rsvpChoice.isNone && input.approve then throw (.rsvpNotSubmitted input.id)
  if invitation.rsvpChoice ≠ some .yes && input.approve then throw (.rsvpNotAccepted input.id)
  if input.approve && invitation.status = .approved then
    throw (.invitationAlreadyApproved input.id)
  if !input.approve && invitation.status = .rejected then
    throw (.invitationAlreadyRejected input.id)

/-- The write of an approval, noted together with it. -/
def writeApproval (input : ApproveInvitationDTO) : Query Invitation := do
  let approvedAt ← clock
  let updated ← updateInvitation input.id {
    approvedByUserId := some (some input.actorId)
    approvedAt := some (some approvedAt)
    status := some .approved }
  note (.approved input.id input.actorId)
  return updated

def writeRejection (input : ApproveInvitationDTO) : Query Invitation := do
  let now ← clock
  let updated ← updateInvitation input.id {
    pendingContactId := some none
    pendingContactPayload := some none
    status := some .rejected
    approvedByUserId := some (some input.actorId)
    approvedAt := some (some now) }
  note (.rejected input.id input.actorId)
  return updated

def approve (input : ApproveInvitationDTO) : Program Invitation := do
  let invitation ← (do
    let invitation ← ensureExists input.id
    approveGuard input invitation
    return invitation : Query Invitation)
  if input.approve then
    -- the grant goes by the row that was read, what follows by the row that is written
    match invitation.guestProfileId with
    | some guest => grantGuestAccess invitation.eventId guest input.actorId
    | none => pure ()
    let updated ← writeApproval input
    let settings ← findSettings updated.eventId
    let now ← clock
    publishMilestone cfg ctx updated.eventId .approved (updated.approvedAt.getD now) updated.id
      (some input.actorId)
    if updated.guestProfileId.isNone then confirmApproval cfg ctx input updated settings
    return updated
  else
    match invitation.pendingContactId with
    | some token => cacheDelete token
    | none => pure ()
    writeRejection input

def updatePlusOneLimit (input : UpdateInvitationPlusOneLimitInput)
    (activeEventId : Option EventId) : Program Invitation := do
  if input.maxPlusOnes < 0 then
    throw (.invitationValidation "maxPlusOnes must be a non-negative integer")
  Query.transaction do
    let invitation ← ensureExists input.id
    assertMatchesActiveEvent invitation.eventId activeEventId
    if invitation.invitedByInvitationId.isSome then
      throw (.invitationValidation "Plus-one limits can only be changed on parent invitations")
    -- what is written is no increment: it takes the count for what it will be at the commit
    let assignedCount ← countInvitations (·.invitedByInvitationId = some invitation.id)
    if input.maxPlusOnes < assignedCount then
      throw (.invitationValidation "maxPlusOnes cannot be less than assigned plus-ones")
    updateInvitation invitation.id
      { maxInvitees := some (.set (input.maxPlusOnes - assignedCount)) }

def delete (id : Nat) (activeEventId : Option EventId) : Program Unit := do
  (do
    let invitation ← ensureExists id
    assertMatchesActiveEvent invitation.eventId activeEventId : Query Unit)
  let _ ← deleteInvitation id

def deleteMany (ids : List Nat) (activeEventId : Option EventId) : Program Unit := do
  if ids.isEmpty then throw (.invitationValidation "At least one invitation id is required")
  Query.transaction <| ids.forM fun id => do
    let invitation ← ensureExists id
    assertMatchesActiveEvent invitation.eventId activeEventId
    let _ ← deleteInvitation id

def bulkApprove (items : List ApproveInvitationDataInput) (approved : Bool) (actorId : UserId)
    (activeEventId : Option EventId) : Program Unit :=
  items.forM fun item => do
    let _ ← approve cfg ctx {
      id := item.invitationId
      approve := approved
      actorId
      seatId := item.seatId
      locale := item.locale
      activeEventId }

def canStage (invitation : Invitation) : Bool :=
  invitation.status = .pending || invitation.status = .accepted

def canUnstage (invitation : Invitation) : Bool := invitation.status = .approvalStaged

/-- Unstaging takes the status back from the RSVP. -/
def stagedStatus (staged : Bool) (invitation : Invitation) : InvitationStatus :=
  if staged then .approvalStaged
  else if invitation.rsvpChoice = some .yes then .accepted else .pending

def stageGuard (staged : Bool) (activeEventId : Option EventId) (invitation : Invitation) :
    Query Unit := do
  assertMatchesActiveEvent invitation.eventId activeEventId
  if (staged && !canStage invitation) || (!staged && !canUnstage invitation) then
    throw (.invitationValidation ("Invitation '" ++ toString invitation.id ++
      "' cannot change its staged approval state"))

def bulkStage (ids : List Nat) (staged : Bool) (activeEventId : Option EventId) :
    Program Unit := do
  let invitations ← (do
    let invitations ← findManyInvitations (·.id ∈ ids)
    if invitations.length ≠ ids.eraseDups.length then
      throw (.invitationValidation "One or more invitations do not exist")
    invitations.forM (stageGuard staged activeEventId)
    return invitations : Query (List Invitation))
  Query.transaction <| invitations.forM fun invitation => do
    let _ ← updateInvitation invitation.id { status := some (stagedStatus staged invitation) }

def resendGuestConfirmations (ids : List Nat) (locale : Option Locale) (actorId : UserId)
    (activeEventId : Option EventId) : Program Unit :=
  ids.eraseDups.forM fun id => do
    (do
      let invitation ← ensureExists id
      assertMatchesActiveEvent invitation.eventId activeEventId : Query Unit)
    let _ ← GuestConfirmation.resendConfirmation cfg ctx id (some actorId) locale

def importedInvitation (eventId : EventId) (actorId : UserId) (firstName lastName : String)
    (maxInvitees : Int) : Invitation where
  type := .privateInvite
  eventId
  firstName
  lastName
  maxInvitees
  invitedByUserId := some actorId

/-- One row of the file as an invitation. -/
def importRow (eventId : EventId) (actorId : UserId) (firstName lastName : String)
    (maxPlusOnes : Option Cell) : Program Unit :=
  Query.transaction do
    match maxPlusOnes.map (·.number) with
    -- a fraction or `NaN`
    | some none => throw .prismaValidation
    | number =>
      let maxInvitees := (number.getD none).getD 0
      if fitsInt maxInvitees then
        let invitation ← createInvitation
          (importedInvitation eventId actorId firstName lastName maxInvitees)
        enqueue ctx "invitation.created.v1"
          (invitationCreated invitation (some actorId) false (some "import"))
      else throw .valueOutOfRange

/-- The insertion loop: the rows imported, and the duplicates skipped. -/
def importRows (eventId : EventId) (actorId : UserId) :
    List (CanonicalField → Option Cell) → List String → Program (Nat × List String)
  | [], _ => return (0, [])
  | row :: rows, existingSet => do
    let firstName := cellText (row .firstName)
    let lastName := cellText (row .lastName)
    let key := nameKey firstName lastName
    if key ∈ existingSet then
      let (imported, duplicates) ← importRows eventId actorId rows existingSet
      return (imported, (firstName ++ " " ++ lastName) :: duplicates)
    else
      importRow ctx eventId actorId firstName lastName (row .maxPlusOnes)
      let (imported, duplicates) ← importRows eventId actorId rows (key :: existingSet)
      return (imported + 1, duplicates)

/-- The headers and the rows of the uploaded file; other types of file have none. -/
def readSheet (uploadType : String) (sheet : Option Sheet) : Query Sheet :=
  if uploadType = "csv" then
    let rawRows := (sheet.map (·.rawRows)).getD []
    return ⟨(rawRows.headD []).map (·.1), rawRows⟩
  else if uploadType = "xlsx" then
    match sheet with
    | some s => return s
    | none => throw (.invitationValidation "Excel file has no sheets")
  else return ⟨[], []⟩

def importInvitations (eventId : EventId) (uploadType : String) (sheet : Option Sheet)
    (actorId : UserId) : Program ImportInvitationsResult := do
  (Resumption.Block.call (.dependency .storage) fun w => (.ok (), w) : Query Unit)
  let ⟨headers, rawRows⟩ ← readSheet uploadType sheet
  let rows := rawRows.map (applyMapping (mapColumns cfg headers))
  let errors := (rows.zipIdx.map fun (row, i) => rowErrors i row).flatten
  if !errors.isEmpty then
    return { total := rows.length, imported := 0, skipped := rows.length, duplicates := [], errors }
  let existing ← findManyInvitations (·.eventId = eventId)
  let (imported, duplicates) ← importRows ctx eventId actorId rows
    (existing.map fun r => nameKey r.firstName r.lastName)
  return { total := rows.length, imported, skipped := rows.length - imported, duplicates,
           errors := [] }

end AdminWrite
end InvitationService

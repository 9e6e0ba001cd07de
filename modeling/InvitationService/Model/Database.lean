import InvitationService.Model.World
import InvitationService.Lib.Transaction

namespace InvitationService

open Resumption

abbrev Query := Block World Exception
abbrev Program := Service World Exception

def currentTenantId (cfg : Config) (ctx : Context) : TenantId :=
  (ctx.tenantId <|> ctx.principalTenantId).getD cfg.defaultTenantId

def putEntry (f : EventId → UserId → Option α) (e : EventId) (u : UserId) (x : Option α) :
    EventId → UserId → Option α :=
  Function.update f e (Function.update (f e) u x)

section

variable {f : EventId → UserId → Option α} {e e' : EventId} {u u' : UserId} {x : Option α}

@[simp] theorem putEntry_self : putEntry f e u x e u = x := by simp [putEntry]

theorem putEntry_of_ne (h : ¬ (e = e' ∧ u = u')) : putEntry f e u x e' u' = f e' u' := by
  by_cases he : e' = e
  · subst he
    have hu : u' ≠ u := fun hu => h ⟨rfl, hu.symm⟩
    simp [putEntry, hu]
  · simp [putEntry, he]

end

namespace Query

variable (w : World) (i : Nat) (e : EventId) (u : UserId)

def clock : Query Nat := Block.observe World.now

def note (x : Effect) : Query Unit := Block.record (·.log x)

def findInvitation : Query (Option Invitation) :=
  Block.call (.dependency .database) fun w => (.ok (w.row i), w)

def findManyInvitations (p : Invitation → Bool) : Query (List Invitation) :=
  Block.call (.dependency .database) fun w => (.ok (w.db.invitations.select p), w)

def createInvitation (r : Invitation) : Query Invitation :=
  Block.call (.dependency .database) fun w =>
    if h : w.db.invitations.ParentExists r.invitedByInvitationId then
      (.ok ((r.stamped w.now).withId w.db.invitations.next),
        w.setInvitations (w.db.invitations.insert (r.stamped w.now) h))
    else (.error .foreignKeyViolation, w)

def updateInvitation (d : InvitationUpdate) : Query Invitation :=
  Block.call (.dependency .database) fun w =>
    match w.row i with
    | some r =>
      if d.fits r then (.ok (d.apply w.now r), w.setInvitations (w.db.invitations.patch i d w.now))
      else (.error .valueOutOfRange, w)
    | none => (.error .recordNotFound, w)

/-- `updateMany` on one id under a further condition; the count of the rows updated. -/
def updateManyInvitations (p : Invitation → Bool) (d : InvitationUpdate) : Query Nat :=
  Block.call (.dependency .database) fun w =>
    if (w.row i).any p then (.ok 1, w.setInvitations (w.db.invitations.patch i d w.now))
    else (.ok 0, w)

def deleteInvitation : Query Invitation :=
  Block.call (.dependency .database) fun w =>
    match w.row i with
    | some r => (.ok r, w.setInvitations (w.db.invitations.remove (· == i)))
    | none => (.error .recordNotFound, w)

def deleteManyInvitations (p : Invitation → Bool) : Query Unit :=
  Block.call (.dependency .database) fun w =>
    (.ok (), w.setInvitations (w.db.invitations.remove fun i => (w.row i).any p))

def countInvitations (p : Invitation → Bool) : Query Nat :=
  Block.call (.dependency .database) fun w => (.ok (w.db.invitations.select p).length, w)

def findSettings : Query (Option EventSettings) :=
  Block.call (.dependency .database) fun w => (.ok (w.db.settings e), w)

def upsertSettings (create update : EventSettingsData) : Query Unit :=
  Block.call (.dependency .database) fun w =>
    if create.fits && update.fits then
      let s := { ((w.db.settings e).map update.apply).getD create.insert with
        updatedAt := some w.now }
      (.ok (), { w with db := { w.db with
        settings := Function.update w.db.settings e (some s) } })
    else (.error .valueOutOfRange, w)

def findRole : Query (Option EventRole) :=
  Block.call (.dependency .database) fun w => (.ok (w.db.roles e u), w)

/-- `@updatedAt` stamps the row with the wall clock. -/
def upsertRole (role : EventRoleType) : Query Unit :=
  Block.call (.dependency .database) fun w =>
    (.ok (), { w with db := { w.db with
      roles := putEntry w.db.roles e u (some ⟨role, some w.now⟩) } })

def deleteRole : Query Unit :=
  Block.call (.dependency .database) fun w =>
    (.ok (), { w with db := { w.db with roles := putEntry w.db.roles e u none } })

def findAccess : Query (Option EventAccess) :=
  Block.call (.dependency .database) fun w => (.ok (w.db.access e u), w)

def upsertAccess (permissions : List String) (roles : String) (occurredAt : Nat) :
    Query Unit :=
  Block.call (.dependency .database) fun w =>
    let r : EventAccess := ⟨permissions, roles, some occurredAt, some w.now⟩
    (.ok (), { w with db := { w.db with access := putEntry w.db.access e u (some r) } })

def deleteRolesOf (es : List EventId) : Query Unit :=
  Block.call (.dependency .database) fun w => (.ok (), { w with db := { w.db with
    roles := fun e u => if e ∈ es then none else w.db.roles e u } })

def deleteSettingsOf (es : List EventId) : Query Unit :=
  Block.call (.dependency .database) fun w => (.ok (), { w with db := { w.db with
    settings := fun e => if e ∈ es then none else w.db.settings e } })

def deleteAccessOf (es : List EventId) : Query Unit :=
  Block.call (.dependency .database) fun w => (.ok (), { w with db := { w.db with
    access := fun e u => if e ∈ es then none else w.db.access e u } })

/-- `AnalyticsOutboxService.enqueue`: no fact without a verified tenant. -/
def enqueue (ctx : Context) (topic : String) (fact : AnalyticsFact) : Query Unit :=
  match ctx.tenantId with
  | none => throw .tenantContextRequired
  | some tenantId => Block.call (.dependency .database) fun w =>
      (.ok (), w.addFacts [⟨tenantId, topic, ctx.actorId, w.now, fact⟩])

/-- `cache.set` on the pending-contact key returns a token of its own making. -/
def cacheSet (payload : PendingUser) : Query Nat :=
  Block.call (.dependency .cache) fun w =>
    (.ok w.nextToken, w.cachePending payload)

def cacheGet (token : Nat) : Query (Option PendingUser) :=
  Block.call (.dependency .cache) fun w => (.ok (w.pendingContact token), w)

def cacheDelete (token : Nat) : Query Unit :=
  Block.call (.dependency .cache) fun w => (.ok (), w.dropPending token)

def inResendCooldown : Query Bool :=
  Block.call (.dependency .cache) fun w => (.ok (w.resendCooldown i), w)

def setResendCooldown : Query Unit :=
  Block.call (.dependency .cache) fun w => (.ok (), { w with
    resendCooldown := Function.update w.resendCooldown i true })

def acquireLock (l : Lock) : Query (Option Nat) :=
  Block.call (.dependency .lock) fun w =>
    match w.locks l with
    | some _ => (.ok none, w)
    | none => (.ok (some w.nextLock), { w with
        locks := Function.update w.locks l (some w.nextLock)
        nextLock := w.nextLock + 1 })

def releaseLock (l : Lock) (token : Nat) : Query Unit :=
  Block.call (.dependency .lock) fun w =>
    if w.locks l = some token then
      (.ok (), { w with locks := Function.update w.locks l none })
    else (.ok (), w)

def send (cfg : Config) (ctx : Context) (m : Message) (actorId : Option UserId) : Query Unit :=
  Block.call (.dependency .kafka) fun w => 
    (.ok (), w.log (.produced m actorId (currentTenantId cfg ctx)))

def schedule (job : Job) (delayMs : Nat) : Query Unit :=
  Block.call (.dependency .jobs) fun w => (.ok (), w.log (.scheduled job (w.now + delayMs)))

/-- `EventAccessClient.grantGuestAccess`. -/
def grantGuestAccess (actorId : UserId) : Query Unit :=
  Block.call (.eventAccessGrant e u) fun w => (.ok (), w.log (.granted e u actorId))

def setSignupMarker : Query Unit :=
  Block.call (.dependency .cache) fun w => (.ok (), w.log (.signupMarker i u))

end Query

/-- `prisma.$transaction`. -/
def Query.transaction (q : Query α) : Program α :=
  Resumption.transaction World.rollback (.dependency .database) q

def ensureExists (i : Nat) : Query Invitation := do
  match ← Query.findInvitation i with
  | some r => return r
  | none => throw (.invitationNotFound i)

def isSpace (c : Char) : Bool :=
  c.toNat ∈ [9, 10, 11, 12, 13, 32, 160, 0x1680, 0x2028, 0x2029, 0x202f, 0x205f, 0x3000, 0xfeff]
    || (0x2000 ≤ c.toNat && c.toNat ≤ 0x200a)

def trim (s : String) : String :=
  String.ofList ((s.toList.dropWhile isSpace).reverse.dropWhile isSpace).reverse

/-- A string is truthy unless it is missing or empty. -/
def truthy (s : Option String) : Bool := s.any (· ≠ "")

def hasValidPhoneNumber (phoneNumbers : List PhoneNumberInput) : Bool :=
  phoneNumbers.any fun ph => trim ph.number ≠ ""

def normalizeOptionalText (value : Option String) : Option String := value.map trim

end InvitationService

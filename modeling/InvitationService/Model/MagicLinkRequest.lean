import InvitationService.Lib.Component
import InvitationService.Model.GuestMagicLink
import InvitationService.Model.Service

namespace InvitationService

open Resumption

namespace GuestMagicLink

inductive InternalResult
  | dispatchQueued | invalidIdentifier | noMatch | ambiguous | ineligibleStatus | eventExpired
  | missingGuestProfile | rateLimited | internalFailure
  deriving DecidableEq, Repr

/-- What the endpoint is deployed with besides the configuration of the service; an empty
`DEFAULT_TENANT_ID` is none. -/
structure Deployment extends Config where
  hasDefaultTenantId : Bool := true
  hasRateLimitStore : Bool := true
  lower : String → String
  hmac : String → String

structure ClientContext where
  locale : Locale
  device : String
  ip : Option String := none
  location : String
  deriving DecidableEq, Repr

structure RequestContext extends Context where
  correlationId : Option String := none
  requestId : Option String := none
  traceId : Option String := none
  deriving DecidableEq, Repr

/-- The mutation `requestGuestMagicLink` with the context it comes in, and what `randomUUID()`
returns to it. -/
structure LinkCall where
  identifier : String
  firstName : Option String := none
  lastName : Option String := none
  client : ClientContext
  context : RequestContext := {}
  uuid : String := ""
  deriving DecidableEq, Repr

/-- `GuestMagicLinkRequestDTO`. -/
structure LinkRequestDTO where
  userId : UserId
  tenantId : TenantId
  recipient : String
  channel : Channel
  locale : Locale
  device : String
  ip : Option String
  location : String
  correlationId : String
  traceId : Option String
  deriving DecidableEq, Repr

/-- `GuestMagicLinkMetricsService`. -/
structure Metrics where
  total : Nat := 0
  dispatched : Nat := 0
  byResult : InternalResult → Nat := fun _ => 0
  byChannel : Channel → Nat := fun _ => 0

/-- What `record` logs. -/
structure LogLine where
  result : InternalResult
  correlationId : String
  identifierFingerprint : String
  channel : Option Channel
  deriving DecidableEq, Repr

def Metrics.record (m : Metrics) (result : InternalResult)
    (channel : Option Channel) : Metrics where
  total := m.total + 1
  dispatched := if result = .dispatchQueued then m.dispatched + 1 else m.dispatched
  byResult := Function.update m.byResult result (m.byResult result + 1)
  byChannel := match channel with
    | some c => Function.update m.byChannel c (m.byChannel c + 1)
    | none => m.byChannel

/-- A counter of the rate-limit store. -/
structure Counter where
  count : Nat
  expiresAt : Option Nat := none
  deriving DecidableEq, Repr

/-- The world of the service, the rate-limit store, and what the requests leave behind: metrics
and log lines of the process, messages on the topic `requestGuestMagicLink`; the newest first. -/
structure LinkWorld where
  world : World
  counters : String → Option Counter := fun _ => none
  metrics : Metrics := {}
  lines : List LogLine := []
  sent : List LinkRequestDTO := []
  calls : List LinkCall := []

/-- The part the service works on. -/
def worldPart : Part LinkWorld World where
  get := LinkWorld.world
  set w s := { s with world := w }
  get_set _ _ := rfl
  set_get _ := rfl
  set_set _ _ _ := rfl

@[simp] theorem worldPart_get (s : LinkWorld) : worldPart.get s = s.world := rfl

@[simp] theorem worldPart_set (w : World) (s : LinkWorld) :
    worldPart.set w s = { s with world := w } := rfl

abbrev LinkQuery := Block LinkWorld Exception
abbrev LinkProgram := Service LinkWorld Exception

namespace LinkQuery

def clock : LinkQuery Nat := Block.observe fun s => s.world.now

/-- `ValkeyRateLimitStore.incr`: a key that is missing counts from nought, a key that has an
expiry keeps it. -/
def incr (key : String) : LinkQuery Nat :=
  Block.call (.dependency .cache) fun s =>
    let counter : Counter := match s.counters key with
      | some c => { c with count := c.count + 1 }
      | none => { count := 1 }
    (.ok counter.count, { s with counters := Function.update s.counters key (some counter) })

/-- `ValkeyRateLimitStore.expire`, in milliseconds. -/
def expire (key : String) (ms : Nat) : LinkQuery Unit :=
  Block.call (.dependency .cache) fun s =>
    (.ok (), { s with
      counters := Function.update s.counters key
        ((s.counters key).map fun c => { c with expiresAt := some (s.world.now + ms) }) })

def record (result : InternalResult) (correlationId fingerprint : String)
    (channel : Option Channel) : LinkQuery Unit :=
  Block.record fun s => { s with
    metrics := s.metrics.record result channel
    lines := ⟨result, correlationId, fingerprint, channel⟩ :: s.lines }

def send (payload : LinkRequestDTO) : LinkQuery Unit :=
  Block.call (.dependency .kafka) fun s => (.ok (), { s with sent := payload :: s.sent })

end LinkQuery

def rateLimitWindow : Nat := 60 * 60 * 1000
def rateLimitMaxPerWindow : Nat := 10

variable (dep : Deployment)

def rateLimitKey (ip : String) : String := "guest-magic-link:ip:" ++ ip

def isRateLimited (ip : Option String) : LinkProgram Bool :=
  match ip.filter fun ip => ip ≠ "" && dep.hasRateLimitStore with
  | none => return false
  | some ip => do
    let count ← LinkQuery.incr (rateLimitKey ip)
    -- a step of its own: where it fails, the counter stays without an expiry
    if count = 1 then LinkQuery.expire (rateLimitKey ip) rateLimitWindow
    return decide (rateLimitMaxPerWindow < count)

/-- Why none of the matches is eligible. -/
def ineligibleReason (now : Nat) (found : List ContactMatch) : InternalResult :=
  if found.any fun candidate => candidate.status ≠ .approved && candidate.status ≠ .accepted then
    .ineligibleStatus
  else if found.any (·.guestProfileId.isNone) then .missingGuestProfile
  else if found.any fun candidate => !candidate.eventEndsAt.any fun endsAt =>
    (now : Int) < endsAt then
    .eventExpired
  else .internalFailure

/-- The tenant of the request, if one is known. -/
def linkTenantId (ctx : RequestContext) : Option TenantId :=
  ctx.tenantId <|> ctx.principalTenantId <|>
    if dep.hasDefaultTenantId then some dep.defaultTenantId else none

namespace LinkCall

variable (q : LinkCall)

def correlationId : String := (q.context.correlationId <|> q.context.requestId).getD q.uuid

def normalized : Option NormalizedIdentifier := normalizeIdentifier dep.toConfig q.identifier

def fingerprint : String :=
  dep.hmac (((q.normalized dep).map (·.value)).getD (trim q.identifier))

/-- The resolver leaves out a name that is missing or empty. -/
def name : RequestedName :=
  ⟨q.firstName.filter fun x => x ≠ "", q.lastName.filter fun x => x ≠ ""⟩

def payload (userId : UserId) (tenantId : TenantId) (normalized : NormalizedIdentifier) :
    LinkRequestDTO where
  userId
  tenantId
  recipient := normalized.value
  channel := normalized.channel
  locale := q.client.locale
  device := q.client.device
  ip := q.client.ip.filter fun ip => ip ≠ ""
  location := q.client.location
  correlationId := q.correlationId
  traceId := q.context.traceId

def record (result : InternalResult) (channel : Option Channel) : LinkQuery Unit :=
  LinkQuery.record result q.correlationId (q.fingerprint dep) channel

/-- What follows when some matches are eligible. -/
def dispatch (tenantId : TenantId) (normalized : NormalizedIdentifier)
    (eligible : List ContactMatch) : LinkProgram Unit :=
  match (resolveEligibleMatch dep.toConfig eligible (some q.name)).bind (·.guestProfileId) with
  | none => q.record dep .ambiguous normalized.channel
  | some userId => do
    LinkQuery.send (q.payload userId tenantId normalized)
    q.record dep .dispatchQueued normalized.channel

/-- The body of the `try`. -/
def lookup (normalized : NormalizedIdentifier) : LinkProgram Unit :=
  match linkTenantId dep q.context with
  | none => q.record dep .internalFailure normalized.channel
  | some tenantId => do
    let found ← perform ((findMatches dep.lower normalized tenantId).zoom worldPart)
    if found.isEmpty then q.record dep .noMatch normalized.channel
    else
      let now ← LinkQuery.clock
      if (eligible now found).isEmpty then
        let now ← LinkQuery.clock
        q.record dep (ineligibleReason now found) normalized.channel
      else q.dispatch dep tenantId normalized (eligible now found)

/-- `GuestMagicLinkService.request`. -/
def request : LinkProgram Unit := do
  if ← isRateLimited dep q.client.ip then
    q.record dep .rateLimited ((q.normalized dep).map (·.channel))
  else
    match q.normalized dep with
    | none => q.record dep .invalidIdentifier none
    | some normalized =>
      tryCatch (q.lookup dep normalized) fun _ =>
        q.record dep .internalFailure normalized.channel

end LinkCall

/-- A counter is gone once it has expired. -/
inductive Expiry : LinkWorld → LinkWorld → Prop
  | expire {s : LinkWorld} {key : String} {n due : Nat} :
      s.counters key = some ⟨n, some due⟩ → due ≤ s.world.now →
      Expiry s { s with counters := Function.update s.counters key none }

/-- The requests for a magic link, each detached from its response. -/
def links : System (Nat → Bool) LinkWorld Exception LinkCall where
  exec q := q.request dep
  enabled _ _ := True
  arrive q s := { s with calls := q :: s.calls }
  env := Expiry

/-- The whole deployment: every other call of the service next to these requests. -/
abbrev recovery : System (Nat → Bool) LinkWorld Exception (Request ⊕ LinkCall) :=
  (service dep.toConfig).beside worldPart (links dep)

end GuestMagicLink
end InvitationService

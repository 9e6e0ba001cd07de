import InvitationService.Lib.Machine
import InvitationService.Model.Types
import Mathlib.Algebra.Order.Ring.Nat
import Mathlib.Logic.Function.Basic

namespace InvitationService

/-- A row of `AnalyticsOutbox`: what `enqueue` writes, and what became of it. -/
structure AnalyticsOutbox extends OutboxRow where
  correlationId : Option String
  attempts : Nat := 0
  nextAttemptAt : Nat
  lockedAt : Option Nat := none
  lockedBy : Option Nat := none
  publishedAt : Option Nat := none
  deadLetteredAt : Option Nat := none
  lastError : Option String := none
  createdAt : Nat
  deriving DecidableEq, Repr

namespace AnalyticsOutboxPublisher

abbrev OutboxId := Nat

/-- `instanceId`, a `randomUUID()`. -/
abbrev InstanceId := Nat

/-- Free, or locked before `cutoff`. -/
def unlocked (cutoff : Nat) (row : AnalyticsOutbox) : Bool :=
  match row.lockedAt with
  | none => true
  | some lockedAt => lockedAt < cutoff

def finished (row : AnalyticsOutbox) : Bool :=
  row.publishedAt.isSome || row.deadLetteredAt.isSome

/-- The `where` of the claim, its dates taken at `now`. -/
def claimable (now : Nat) (row : AnalyticsOutbox) : Bool :=
  !finished row && unlocked (now - 60000) row

/-- The `where` of `findMany`, its dates taken at `now`. -/
def ready (now : Nat) (row : AnalyticsOutbox) : Bool :=
  claimable now row && row.nextAttemptAt ≤ now

def isReady (rows : List AnalyticsOutbox) (now : Nat) (id : OutboxId) : Bool :=
  (rows[id]?).any (ready now)

def createdAt (rows : List AnalyticsOutbox) (id : OutboxId) : Nat :=
  (rows[id]?).elim 0 (·.createdAt)

/-- What `findMany` may answer: fifty of the rows that are ready, or all there are, the oldest
first. -/
def Candidates (rows : List AnalyticsOutbox) (now : Nat) (ids : List OutboxId) : Prop :=
  ids.Nodup ∧ (∀ id ∈ ids, isReady rows now id) ∧
    ids.length = min 50 ((List.range rows.length).countP (isReady rows now)) ∧
    ids.Pairwise (fun id id' => createdAt rows id ≤ createdAt rows id') ∧
    ∀ id ∈ List.range rows.length, isReady rows now id → id ∉ ids →
      ∀ id' ∈ ids, createdAt rows id' ≤ createdAt rows id

instance (rows : List AnalyticsOutbox) (now : Nat) (ids : List OutboxId) :
    Decidable (Candidates rows now ids) :=
  inferInstanceAs (Decidable (_ ∧ _ ∧ _ ∧ _ ∧ _))

/-- What `rawSend` is given: the topic, the envelope and the headers. -/
structure Message where
  topic : String
  eventId : OutboxId
  eventName : String
  eventType : String := "EVENT"
  eventVersion : String := "1"
  service : String := "invitation"
  timestamp : Nat
  payload : AnalyticsFact
  tenantId : TenantId
  correlationId : Option String
  actorId : Option UserId
  deriving DecidableEq, Repr

def message (id : OutboxId) (record : AnalyticsOutbox) : Message where
  topic := record.topic
  eventId := id
  eventName := record.topic
  timestamp := record.createdAt
  payload := record.payload
  tenantId := record.tenantId
  correlationId := record.correlationId
  actorId := record.actorId

def claimData (i : InstanceId) (now : Nat) (row : AnalyticsOutbox) : AnalyticsOutbox :=
  { row with lockedAt := some now, lockedBy := some i }

def publishedData (now : Nat) (row : AnalyticsOutbox) : AnalyticsOutbox :=
  { row with publishedAt := some now, lockedAt := none, lockedBy := none, lastError := none }

/-- The data of the update in the `catch`; `record` is the row as it was read. -/
def failedData (record : AnalyticsOutbox) (error : String) (now : Nat) (row : AnalyticsOutbox) :
    AnalyticsOutbox :=
  let attempts := record.attempts + 1
  let row := { row with attempts, lockedAt := none, lockedBy := none, lastError := some error }
  if attempts ≥ 10 then { row with deadLetteredAt := some now }
  else { row with nextAttemptAt := now + min 300000 (2 ^ attempts * 1000) }

/-- What `publish` waits for. -/
inductive Stage
  | reading
  | sending (record : AnalyticsOutbox)
  | delivered (record : AnalyticsOutbox) (now : Nat)
  | undelivered (record : AnalyticsOutbox) (error : String) (now : Nat)
  deriving DecidableEq, Repr

/-- What an instance waits for: nothing, `findMany`, the claim of `id`, or, since it holds a
lease on `id` from `lockedAt`, a statement or the send of `publish(id)`. -/
inductive Phase
  | idle
  | selecting (now : Nat)
  | claiming (id : OutboxId) (rest : List OutboxId) (now : Nat)
  | publishing (id : OutboxId) (rest : List OutboxId) (lockedAt : Nat) (stage : Stage)
  | stopped
  deriving DecidableEq, Repr

/-- What happens to an instance: its timer fires, what it waits for is answered, a statement
fails, or the process ends. -/
inductive Act
  | poll
  | select (ids : List OutboxId)
  | claim
  | read
  | settle (outcome : Except String Unit)
  | update
  | fault (error : String)
  | stop
  deriving DecidableEq, Repr

inductive Event
  | claimed (i : InstanceId) (id : OutboxId)
  | sent (id : OutboxId) (message : Message)
  | failed (id : OutboxId)
  deriving DecidableEq, Repr

/-- The top of the loop of `publishReady`. -/
def next (now : Nat) : List OutboxId → Phase
  | [] => .idle
  | id :: rest => .claiming id rest now

/-- One step of `publishReady`: the phase and the rows after it, and what is worth noting.
What the code evaluates without waiting it evaluates at one instant, `now`. -/
def advance (i : InstanceId) (rows : List AnalyticsOutbox) (now : Nat) :
    Phase → Act → Option (Phase × List AnalyticsOutbox × List Event)
  | .stopped, _ => none
  | .idle, .poll => some (.selecting now, rows, [])
  | phase, .poll => some (phase, rows, [])
  | .selecting n, .select ids =>
    if Candidates rows n ids then some (next now ids, rows, []) else none
  | .claiming id rest n, .claim =>
    if (rows[id]?).any (claimable n) then
      some (.publishing id rest n .reading, rows.modify id (claimData i n), [.claimed i id])
    else some (next now rest, rows, [])
  | .publishing id rest t .reading, .read =>
    match rows[id]? with
    | some record => some (.publishing id rest t (.sending record), rows,
        [.sent id (message id record)])
    | none => some (.idle, rows, [])
  | .publishing id rest t (.sending record), .settle outcome =>
    match outcome with
    | .ok _ => some (.publishing id rest t (.delivered record now), rows, [])
    | .error e => some (.publishing id rest t (.undelivered record e now), rows, [.failed id])
  | .publishing id rest _ (.delivered _ n), .update =>
    some (next now rest, rows.modify id (publishedData n), [])
  | .publishing id rest _ (.undelivered record e n), .update =>
    some (next now rest, rows.modify id (failedData record e n), [])
  -- the update after the send is inside the `try`: its failure counts as the send's
  | .publishing id rest t (.delivered record _), .fault e =>
    some (.publishing id rest t (.undelivered record e now), rows, [])
  | .publishing _ _ _ (.sending _), .fault _ => none
  | .idle, .fault _ => none
  | _, .fault _ => some (.idle, rows, [])
  | _, .stop => some (.stopped, rows, [])
  | _, _ => none

/-- Any number of instances, their table and their clock; `log` is what happened, the newest
first. -/
structure State where
  rows : List AnalyticsOutbox := []
  now : Nat := 0
  phase : InstanceId → Phase := fun _ => .idle
  log : List Event := []

inductive Move
  | clock (now : Nat)
  | enqueue (fact : OutboxRow) (correlationId : Option String)
  | act (i : InstanceId) (a : Act)
  deriving DecidableEq, Repr

def step (s : State) : Move → Option State
  | .clock now => if s.now ≤ now then some { s with now } else none
  | .enqueue fact correlationId => some { s with rows := s.rows ++
      [{ fact with correlationId, nextAttemptAt := s.now, createdAt := s.now }] }
  | .act i a => (advance i s.rows s.now (s.phase i) a).map fun (phase, rows, log) =>
      { s with rows, phase := Function.update s.phase i phase, log := log ++ s.log }

/-- The instances of the publisher over one database. -/
def publishers : Machine State Move where
  step := step

end AnalyticsOutboxPublisher
end InvitationService

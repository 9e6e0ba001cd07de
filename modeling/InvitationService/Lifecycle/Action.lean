import Mathlib.Algebra.Ring.Nat
import InvitationService.Lifecycle.Side
import InvitationService.Lifecycle.Tables

namespace InvitationService

open Resumption

/-! Everything one atomic step of a call can do, guards included.  A call acts on what
it has read before: `R` is how the world may have moved since. -/

def Seen (R : World → World → Prop) (P : World → Prop) (w : World) : Prop := ∃ v, P v ∧ R v w

def Snapshot (R : World → World → Prop) (i : Nat) (r : Invitation) : World → Prop :=
  Seen R fun v => v.row i = some r

def Minted (R : World → World → Prop) (token : Nat) (payload : PendingUser) : World → Prop :=
  Seen R fun v => v.pendingContact token = some payload ∧ token < v.nextToken

/-- The plus-ones that the facts `o` say were stored with an RSVP to `p`. -/
def plusOnesStored (p : Nat) (o : List OutboxRow) : Nat :=
  (o.map fun x => if x.payload.aggregateId = p then
    x.payload.properties.plusOneCount.getD 0 else 0).sum

@[simp] theorem plusOnesStored_nil (p : Nat) : plusOnesStored p [] = 0 := rfl

@[simp] theorem plusOnesStored_append (p : Nat) (o o' : List OutboxRow) :
    plusOnesStored p (o ++ o') = plusOnesStored p o + plusOnesStored p o' := by
  simp [plusOnesStored]

@[simp] theorem plusOnesStored_cons (p : Nat) (x : OutboxRow) (o : List OutboxRow) :
    plusOnesStored p (x :: o) = (if x.payload.aggregateId = p then
      x.payload.properties.plusOneCount.getD 0 else 0) + plusOnesStored p o := by
  simp [plusOnesStored]

/-- How many of the facts `o` say that invitation `i` was created. -/
def announced (i : Nat) (o : List OutboxRow) : Nat :=
  o.countP fun x => x.topic = "invitation.created.v1" && x.payload.aggregateId = i

@[simp] theorem announced_nil (i : Nat) : announced i [] = 0 := rfl

@[simp] theorem announced_append (i : Nat) (o o' : List OutboxRow) :
    announced i (o ++ o') = announced i o + announced i o' := List.countP_append

@[simp] theorem announced_cons (i : Nat) (x : OutboxRow) (o : List OutboxRow) :
    announced i (x :: o) = (if x.topic = "invitation.created.v1" ∧ x.payload.aggregateId = i
      then 1 else 0) + announced i o := by
  simp [announced, List.countP_cons, Nat.add_comm]

structure Invitation.Blank (r : Invitation) : Prop where
  pendingContactId : r.pendingContactId = none
  pendingContactPayload : r.pendingContactPayload = none
  guestProfileId : r.guestProfileId = none
  confirmationResendCount : r.confirmationResendCount = 0

structure InvitationUpdate.Personal (d : InvitationUpdate) : Prop where
  status : d.status = none
  rsvpChoice : d.rsvpChoice = none
  pendingContactId : d.pendingContactId = none
  pendingContactPayload : d.pendingContactPayload = none
  guestProfileId : d.guestProfileId = none
  confirmationResendCount : d.confirmationResendCount = none
  maxInvitees : d.maxInvitees = none

def Call.Gives (c : Call) (i : Nat) (seat : Option SeatId) : Prop :=
  match c with
  | .approveInvitation input => input.approve = true ∧ input.id = i ∧ input.seatId = seat
  | .bulkApproveInvitations items approved _ _ =>
    approved = true ∧ ∃ x ∈ items, x.invitationId = i ∧ x.seatId = seat
  | .job (.generateTicket j _ s _ _) => j = i ∧ s = seat
  | .seatReserved payload => payload.invitationId = i ∧ some payload.seatId = seat
  | _ => False

def Call.Judges (c : Call) (i : Nat) (approve : Bool) : Prop :=
  match c with
  | .approveInvitation input => input.approve = approve ∧ input.id = i
  | .bulkApproveInvitations items approved _ _ =>
    approved = approve ∧ ∃ x ∈ items, x.invitationId = i
  | _ => False

def Authorised (c : Call) (a : World) (i : Nat) (v : World) : Prop :=
  c.Judges i true ∨ a.db.invitations.next ≤ i ∨
    ∃ input locale r, c = .replyInvitation input locale ∧ input.invitationId = i ∧
      v.row i = some r ∧ r.status = .accepted

def Call.Projects : Call → Prop
  | .userAccessChanged _ | .roleAssigned _ | .roleRemoved _ | .ownerChanged _
  | .eventDeleted _ | .eventCreated .. | .eventUpdated .. => True
  | _ => False

/-- The calls that may change what the access projection says of `u` in `e`. -/
def Call.WritesAccess (c : Call) (e : EventId) (u : UserId) : Prop :=
  match c with
  | .userAccessChanged payload => payload.eventId = e ∧ payload.userId = u
  | .eventDeleted es => e ∈ es
  | _ => False

/-- The calls that may change what the role projection says of `u` in `e`. -/
def Call.WritesRole (c : Call) (e : EventId) (u : UserId) : Prop :=
  match c with
  | .roleAssigned payload => payload.eventId = e ∧ payload.userId = u
  | .roleRemoved payload => payload.eventId = e ∧ payload.userId = u
  | .ownerChanged payload =>
    payload.eventId = e ∧ (payload.oldOwnerId = some u ∨ payload.newOwnerId = u)
  | .eventDeleted es => e ∈ es
  | _ => False

def Call.Resends : Call → Prop
  | .resendGuestConfirmations .. | .requestGuestConfirmation .. | .job (.remind ..) => True
  | _ => False

def Call.Removes : Call → Prop
  | .removeInvitation .. | .deleteUserInvitations _ | .deleteEventInvitations _ => True
  | _ => False

def Call.Creates (cfg : Config) (c : Call) (now : Nat) (r : Invitation) : Prop :=
  match c with
  | .createInvitation input user => ∃ e settings, input.eventId = some e ∧
      0 ≤ input.maxInvitees.getD 0 ∧
      r = (AdminWrite.createdInvitation cfg input e settings (some user)).stamped now
  | .importInvitations e _ _ _ user => ∃ firstName lastName n,
      r = (AdminWrite.importedInvitation e user firstName lastName n).stamped now
  | _ => False

abbrev pendingUpdate (token : Nat) (payload : PendingUser) : InvitationUpdate :=
  { pendingContactId := some (some token), pendingContactPayload := some (some payload) }

abbrev sendUpdate (token : Nat) (payload : PendingUser) (now : Nat) (incrementResend : Bool) :
    InvitationUpdate :=
  { pendingContactId := some (some token)
    pendingContactPayload := some (some payload)
    confirmationSentAt := some (some now)
    confirmationResendCount := if incrementResend then some (.increment 1) else none }

abbrev capacityUpdate (n : Int) : InvitationUpdate := { maxInvitees := some (.increment n) }

abbrev limitUpdate (n : Int) : InvitationUpdate := { maxInvitees := some (.set n) }

abbrev approvalUpdate (actorId : UserId) (now : Nat) : InvitationUpdate :=
  { approvedByUserId := some (some actorId)
    approvedAt := some (some now)
    status := some .approved }

abbrev rejectionUpdate (actorId : UserId) (now : Nat) : InvitationUpdate :=
  { pendingContactId := some none
    pendingContactPayload := some none
    status := some .rejected
    approvedByUserId := some (some actorId)
    approvedAt := some (some now) }

structure FreshContact (i : Nat) (e : EventId) (payload : PendingUser) : Prop where
  invitationId : payload.invitationId = i
  eventId : payload.eventId = e
  seatId : payload.seatId = none

structure ContactDetails where
  firstName : String
  lastName : String
  email : Option String
  phoneNumbers : List PhoneNumberInput
  deriving DecidableEq, Repr

def PendingUser.details (p : PendingUser) : ContactDetails :=
  ⟨p.firstName, p.lastName, p.email, p.phoneNumbers⟩

def AcceptRSVPInput.details (r : AcceptRSVPInput) : ContactDetails :=
  ⟨r.firstName, r.lastName, r.email, r.phoneNumbers⟩

def UpdatePlusOneInput.details (d : UpdatePlusOneInput) : ContactDetails :=
  ⟨d.firstName, d.lastName, d.email, d.phoneNumbers⟩

def Call.Submits (i : Nat) (d : ContactDetails) : Call → Prop
  | .replyInvitation input _ =>
    input.invitationId = i ∧ input.replyInput.map (·.details) = some d
  | _ => False

/-- The contact that belongs to `r`: stored with it or, failing that, cached. -/
def StoredContact (r : Invitation) (stored : PendingUser) (v : World) : Prop :=
  r.pendingContactPayload = some stored ∨ ∃ token, r.pendingContactPayload = none ∧
    r.pendingContactId = some token ∧ v.pendingContact token = some stored

namespace GuestWrite

def permissionsOf (cfg : Config) (db : Database) (u : UserId) (e : EventId) : List String :=
  match db.access e u with
  | some x => cfg.uniqueEventPermissions x.permissions
  | none => cfg.getDefaultPermissionsForEventRole ((db.roles e u).map (·.role))

/-- How `u` may manage the plus-ones of `parent`: as its guest or its creator, as staff, or
not at all. -/
def authority (cfg : Config) (db : Database) (u : UserId) (parent : Invitation) : Option Bool :=
  if parent.guestProfileId = some u || parent.invitedByUserId = some u then some false
  else if managePlusOnes ∈ permissionsOf cfg db u parent.eventId then some true
  else none

/-- The checks of `createPlusOne` that a request passes, `r` being the parent. -/
structure Admits (cfg : Config) (input : CreatePlusOneInput) (user : UserId) (w : World) (p : Nat)
    (r : Invitation) : Prop where
  ids : createPlusOneIds input = .ok (r.eventId, p)
  names : validateNames input.firstName input.lastName input.plusOneAgeCategory
    input.phoneNumbers = .ok ()
  row : w.row p = some r
  manager : ∃ staffManaged, authority cfg w.db user r = some staffManaged ∧
    (staffManaged = true → truthy input.email = true ∨
      hasValidPhoneNumber input.phoneNumbers = true)
  capacity : 0 < r.maxInvitees

end GuestWrite

section

variable (R : World → World → Prop) (cfg : Config) (c : Call) (a : World)

def PayloadOf (r : Invitation) (payload : PendingUser) : World → Prop :=
  Seen R fun v => ∃ stored locale,
    payload = GuestConfirmation.overrideLocale stored locale ∧ StoredContact r stored v

def EventSettings.releaseAt (s : EventSettings) : Option Nat :=
  if s.scheduleTicketRelease then s.ticketReleaseAt else none

def Released (i due : Nat) (w : World) : Prop :=
  (w.now ≤ due ∧ ∃ e seatId actorId locale,
    c = .job (.generateTicket i e seatId actorId locale)) ∨
  ∃ x settings now, Snapshot R i x w ∧ Seen R (fun v => v.db.settings x.eventId = settings) w ∧
    Seen R (fun v => v.now = now) w ∧
    ∀ releaseAt, settings.bind EventSettings.releaseAt = some releaseAt →
      w.now + (releaseAt - now) ≤ due

/-- What a step leaves of the invitations, and the facts it adds to the outbox. -/
inductive Change (w : World) : InvitationTable → List OutboxRow → Prop
  | same {o : List OutboxRow} :
      (∀ p, plusOnesStored p o = 0 ∧ announced p o = 0) → Change w w.db.invitations o
  | create {r : Invitation} {h : w.db.invitations.ParentExists r.invitedByInvitationId}
      {o : List OutboxRow} :
      c.Creates cfg w.now r → (∀ p, plusOnesStored p o = 0 ∧
        announced p o = if p = w.db.invitations.next then 1 else 0) →
      Change w (w.db.invitations.insert r h) o
  | reply {input : RSVPInput} {locale : Locale} {r r' : Invitation} {plan : GuestWrite.ReplyPlan}
      {now : Nat} {selectedInvitedBy : List String} {t u : InvitationTable}
      {o : List OutboxRow} :
      c = .replyInvitation input locale → R a w →
      Snapshot R input.invitationId r w → w.row input.invitationId = some r' →
      GuestWrite.planReply r input = .ok plan →
      InsertAll (w.db.invitations.patch input.invitationId
          (GuestWrite.replyUpdate cfg r plan now input.replyInput) w.now)
        (plan.allowedPlusOnes.map fun p =>
          (GuestWrite.replyPlusOne cfg r now selectedInvitedBy p).stamped w.now) t →
      (u = t ∨ ∃ token payload, w.nextToken ≤ token ∧
        FreshContact input.invitationId r.eventId payload ∧
        c.Submits input.invitationId payload.details ∧
        u = t.patch input.invitationId (pendingUpdate token payload) w.now) →
      (∀ p, plusOnesStored p o = (if p = input.invitationId then plan.allowedPlusOnes.length
        else 0) ∧ announced p o = 0) →
      Change w u o
  | plusOne {input : CreatePlusOneInput} {user : UserId} {locale : Locale} {p : Nat}
      {r child : Invitation}
      {h : (w.db.invitations.patch p (capacityUpdate (-1)) w.now).ParentExists
        child.invitedByInvitationId}
      {token : Nat} {payload : PendingUser} {o : List OutboxRow} (autoApprove : Bool) :
      c = .createPlusOnesInvitation input user locale → R a w →
      GuestWrite.Admits cfg input user w p r →
      child = (GuestWrite.plusOneChild cfg input r.eventId p user autoApprove w.now).stamped
        w.now →
      w.nextToken ≤ token → FreshContact w.db.invitations.next r.eventId payload →
      (∀ p, plusOnesStored p o = 0 ∧
        announced p o = if p = w.db.invitations.next then 1 else 0) →
      Change w (((w.db.invitations.patch p (capacityUpdate (-1)) w.now).insert child h).patch
        w.db.invitations.next (pendingUpdate token payload) w.now) o
  | details {input : UpdatePlusOneInput} {user : UserId} {i : Nat} {d : InvitationUpdate} :
      c = .updatePlusOnesInvitation input user → d.Personal →
      Change w (w.db.invitations.patch i d w.now) []
  | deleteOne {i p : Nat} {user : UserId} {r : Invitation} :
      c = .removePlusOneInvitation i user → w.row i = some r →
      r.invitedByInvitationId = some p →
      Change w ((w.db.invitations.remove (· == i)).patch p (capacityUpdate 1) w.now) []
  | deleteAll {p : Nat} {user : UserId} {r : Invitation} {is : List Nat} {t : InvitationTable} :
      c = .removeAllPlusOnesByInvitationId p user → w.row p = some r →
      is = (w.db.invitations.select fun x =>
        x.invitedByInvitationId = some p && x.eventId = r.eventId).map (·.id) →
      RemoveAll w.db.invitations is t →
      Change w (t.patch p (capacityUpdate is.length) w.now) []
  | publicRsvp {input : PublicRsvpInput} {locale : Locale} {settings : Option EventSettings}
      {selectedInvitedBy : List String} {guestNote : Option String} {r : Invitation}
      {h : w.db.invitations.ParentExists r.invitedByInvitationId} {t : InvitationTable}
      {o : List OutboxRow} :
      c = .createInvitationFromRsvp input locale →
      r = (GuestWrite.publicInvitee cfg input settings selectedInvitedBy guestNote
        w.now).stamped w.now →
      InsertAll (w.db.invitations.insert r h) (input.plusOnes.map fun p =>
        (GuestWrite.publicPlusOne cfg input w.db.invitations.next selectedInvitedBy w.now
          p).stamped w.now) t →
      (∀ p, plusOnesStored p o =
        (if p = w.db.invitations.next then input.plusOnes.length else 0) ∧
        announced p o = if w.db.invitations.next ≤ p ∧ p < t.next then 1 else 0) →
      Change w t o
  | attach {input : PublicRsvpInput} {locale : Locale} {i : Nat} {r : Invitation}
      {token : Nat} {payload : PendingUser} :
      c = .createInvitationFromRsvp input locale → a.db.invitations.next ≤ i →
      Snapshot R i r w → FreshContact i r.eventId payload → Minted R token payload w →
      Change w (w.db.invitations.patch i (pendingUpdate token payload) w.now) []
  | limit {input : UpdateInvitationPlusOneLimitInput} {e : Option EventId} {r : Invitation} :
      c = .updateInvitationPlusOneLimit input e → w.row input.id = some r →
      ((w.db.invitations.children input.id).card : Int) ≤ input.maxPlusOnes →
      Change w (w.db.invitations.patch input.id (limitUpdate
        (input.maxPlusOnes - (w.db.invitations.children input.id).card)) w.now) []
  | reject {i : Nat} {r : Invitation} {actorId : UserId} {now : Nat} :
      c.Judges i false → Snapshot R i r w → r.status ≠ .rejected →
      Change w (w.db.invitations.patch i (rejectionUpdate actorId now) w.now) []
  | link {i : Nat} {user : UserId} : c = .addGuestId i user →
      Change w (w.db.invitations.patch i { guestProfileId := some (some user) } w.now) []
  | send {i : Nat} {r : Invitation} {payload : PendingUser} {token now : Nat}
      {incrementResend : Bool} :
      Snapshot R i r w → r.guestProfileId = none →
      GuestConfirmation.actionable r.status = true → PayloadOf R r payload w →
      Minted R token payload w →
      (incrementResend = true → c.Resends ∧ truthy payload.seatId = true) →
      Change w (w.db.invitations.patch i (sendUpdate token payload now incrementResend) w.now) []
  | stage {ids : List Nat} {staged : Bool} {e : Option EventId} {rs : List Invitation}
      {t : InvitationTable} :
      c = .bulkStageInvitations ids staged e → (rs.map (·.id)).Nodup →
      (∀ r ∈ rs, Snapshot R r.id r w ∧ if staged then AdminWrite.canStage r = true
        else AdminWrite.canUnstage r = true) →
      StageAll staged w.now w.db.invitations rs t → Change w t []
  | remove {roots : Nat → Bool} : c.Removes → Change w (w.db.invitations.remove roots) []
  | removeMany {is : List Nat} {e : Option EventId} {t : InvitationTable} :
      c = .removeInvitations is e → RemoveAll w.db.invitations is t → Change w t []

structure Projected (c : Call) (w v : World) : Prop where
  projects : c.Projects
  side : Side w v
  invitations : v.db.invitations = w.db.invitations
  outbox : v.db.outbox = w.db.outbox
  access : ∀ e u, c.WritesAccess e u ∨ v.db.access e u = w.db.access e u
  roles : ∀ e u, c.WritesRole e u ∨ v.db.roles e u = w.db.roles e u

/-- One atomic step of the call `c`, which arrived at `a`. -/
inductive Action (w : World) : World → Prop
  | step {v : World} {o : List OutboxRow} :
      Side w v → Change R cfg c a w v.db.invitations o → v.db.outbox = w.db.outbox ++ o →
      v.db.settings = w.db.settings → v.db.roles = w.db.roles → v.db.access = w.db.access →
      Action w v
  | project {v : World} : Projected c w v → Action w v
  | approve {i : Nat} {r : Invitation} {actorId : UserId} {now : Nat} :
      Snapshot R i r w → r.rsvpChoice = some .yes → r.status ≠ .approved →
      Seen R (Authorised c a i) w →
      Action w ((w.setInvitations (w.db.invitations.patch i (approvalUpdate actorId now)
        w.now)).log (.approved i actorId))
  | confirm {i : Nat} {r : Invitation} {payload : PendingUser} {token : Nat}
      {eventName : String} {seatId : Option SeatId} {endsAt : Nat} {operation : String}
      {actorId : Option UserId} {tenantId : TenantId} :
      Snapshot R i r w → r.guestProfileId = none →
      GuestConfirmation.actionable r.status = true → PayloadOf R r payload w →
      Minted R token payload w →
      (c.Gives i seatId ∧ ((∃ p, c = .seatReserved p) ∨ truthy seatId = true)) ∨
        (payload.seatId = seatId ∧ truthy seatId = true) →
      (∃ p, c = .seatReserved p) ∨ (payload.seatId = seatId ∧ truthy seatId = true) ∨
        Released R c i w.now w →
      Action w (w.log (.produced
        (.confirmGuest i r.eventId token eventName seatId endsAt operation) actorId tenantId))
  | resent {i : Nat} : c.Resends → Action w (w.log (.resent i))
  | reminded {i : Nat} {resent : Bool} : c.Resends → Action w (w.log (.reminded i resent))
  | ticket {i : Nat} {e : EventId} {seatId : Option SeatId} {actorId : UserId}
      {locale : Option Locale} {due : Nat} :
      (truthy seatId = true → c.Gives i seatId) → Released R c i due w →
      Action w (w.log (.scheduled (.generateTicket i e seatId actorId locale) due))

end

def Invitation.core (r : Invitation) : Invitation :=
  { r with
    pendingContactId := none
    pendingContactPayload := none
    confirmationSentAt := none
    confirmationResendCount := 0
    updatedAt := none }

theorem core_sendUpdate (r : Invitation) (token : Nat) (payload : PendingUser) (n now : Nat)
    (inc : Bool) : ((sendUpdate token payload n inc).apply now r).core = r.core := by
  cases r
  simp [InvitationUpdate.apply, Invitation.core, CountUpdate.apply]

structure Kept (v w : World) : Prop where
  next : w.db.invitations.next = v.db.invitations.next
  row : ∀ i, (w.row i).map Invitation.core = (v.row i).map Invitation.core
  settings : w.db.settings = v.db.settings
  roles : w.db.roles = v.db.roles
  access : w.db.access = v.db.access
  now : v.now ≤ w.now
  nextToken : v.nextToken ≤ w.nextToken
  pendingContact : ∀ t < v.nextToken,
    w.pendingContact t = v.pendingContact t ∨ w.pendingContact t = none
  journal : ∃ l, w.journal = l ++ v.journal

namespace Kept

theorem refl (w : World) : Kept w w :=
  ⟨rfl, fun _ => rfl, rfl, rfl, rfl, Nat.le_refl _, Nat.le_refl _, fun _ _ => .inl rfl, [], rfl⟩

theorem trans {u v w : World} (h : Kept u v) (k : Kept v w) : Kept u w where
  next := k.next.trans h.next
  row i := (k.row i).trans (h.row i)
  settings := k.settings.trans h.settings
  roles := k.roles.trans h.roles
  access := k.access.trans h.access
  now := h.now.trans k.now
  nextToken := h.nextToken.trans k.nextToken
  pendingContact t ht := by
    rcases k.pendingContact t (Nat.lt_of_lt_of_le ht h.nextToken) with e | e
    · rw [e]; exact h.pendingContact t ht
    · exact .inr e
  journal := by
    obtain ⟨l, hl⟩ := h.journal
    obtain ⟨m, hm⟩ := k.journal
    exact ⟨m ++ l, by rw [hm, hl, List.append_assoc]⟩

theorem of_environment {v w : World} (h : World.Environment v w) : Kept v w := by
  cases h with
  | pass hn => exact ⟨rfl, fun _ => rfl, rfl, rfl, rfl, hn, Nat.le_refl _, fun _ _ => .inl rfl,
      [], rfl⟩
  | forget token =>
    refine ⟨rfl, fun _ => rfl, rfl, rfl, rfl, Nat.le_refl _, Nat.le_refl _, fun t _ => ?_, [], rfl⟩
    by_cases h : t = token
    · subst h; simp [World.dropPending]
    · simp [World.dropPending, h]
  | cool i => exact ⟨rfl, fun _ => rfl, rfl, rfl, rfl, Nat.le_refl _, Nat.le_refl _,
      fun _ _ => .inl rfl, [], rfl⟩
  | unlock l => exact ⟨rfl, fun _ => rfl, rfl, rfl, rfl, Nat.le_refl _, Nat.le_refl _,
      fun _ _ => .inl rfl, [], rfl⟩

theorem of_side {v w : World} (h : Side v w) (hn : w.db.invitations.next = v.db.invitations.next)
    (hr : ∀ i, (w.row i).map Invitation.core = (v.row i).map Invitation.core)
    (hs : w.db.settings = v.db.settings) (ho : w.db.roles = v.db.roles)
    (ha : w.db.access = v.db.access) : Kept v w where
  next := hn
  row := hr
  settings := hs
  roles := ho
  access := ha
  now := h.now.ge
  nextToken := h.nextToken
  pendingContact _ := h.pendingContact_of_lt
  journal := h.journal.imp fun _ h => h.1

theorem row_some {v w : World} (h : Kept v w) {i : Nat} {r : Invitation} (hr : v.row i = some r) :
    ∃ r', w.row i = some r' ∧ r'.core = r.core := by
  have := h.row i
  rw [hr] at this
  exact Option.map_eq_some_iff.1 this

end Kept

/-- What a call must be able to rely on: its knowledge survives interference, and its own
steps as long as these keep the database. -/
structure Stable (R : World → World → Prop) (cfg : Config) (c : Call) (a : World) : Prop where
  trans : ∀ {s t u}, R s t → R t u → R s u
  next_le : ∀ {s t}, R s t → s.db.invitations.next ≤ t.db.invitations.next
  absorb : ∀ {s t u}, R s t → Action R cfg c a t u → Kept t u → R s u

end InvitationService

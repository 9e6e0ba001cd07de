import InvitationService.Model.GuestConfirmation

namespace InvitationService

open Resumption

namespace GuestMagicLink

/-- What `findMatches` selects of an invitation.  An instant is in milliseconds from
the epoch, before or after it. -/
structure ContactMatch where
  guestProfileId : Option UserId
  status : InvitationStatus
  eventEndsAt : Option Int
  firstName : Option String
  lastName : Option String
  invitedByInvitationId : Option Nat
  updatedAt : Option Int
  deriving DecidableEq, Repr

structure RequestedName where
  firstName : Option String := none
  lastName : Option String := none
  deriving DecidableEq, Repr

inductive Channel | email | whatsapp
  deriving DecidableEq, Repr

structure NormalizedIdentifier where
  channel : Channel
  value : String
  deriving DecidableEq, Repr

/-- `value.replace(/\D/g, '')`. -/
def digitsOf (value : String) : String := String.ofList (value.toList.filter Char.isDigit)

def normalizeIdentifier (cfg : Config) (raw : String) : Option NormalizedIdentifier :=
  let value := trim raw
  if GuestConfirmation.isEmail value.toList then some ⟨.email, cfg.toLowerCase value⟩
  else if value.toList.head? = some '+' then
    let digits := (digitsOf value).toList
    if 8 ≤ digits.length && digits.length ≤ 15 then
      some ⟨.whatsapp, String.ofList ('+' :: digits)⟩
    else none
  else none

def normalizeNamePart (cfg : Config) (value : Option String) : String :=
  String.ofList
    (GuestConfirmation.collapseSpaces false (cfg.toLowerCase (trim (value.getD ""))).toList)

def fullName (cfg : Config) (firstName lastName : Option String) : String :=
  normalizeNamePart cfg firstName ++ " " ++ normalizeNamePart cfg lastName

namespace ContactMatch

def fullName (cfg : Config) (candidate : ContactMatch) : String :=
  GuestMagicLink.fullName cfg candidate.firstName candidate.lastName

def isRoot (candidate : ContactMatch) : Bool := candidate.invitedByInvitationId.isNone

/-- `new Date(candidate.updatedAt ?? 0).getTime()`. -/
def time (candidate : ContactMatch) : Int := candidate.updatedAt.getD 0

end ContactMatch

/-- The full name to look for, where both trimmed parts are given and not empty. -/
def providedName (cfg : Config) (name : Option RequestedName) : Option String :=
  let firstName := (name.bind (·.firstName)).map trim
  let lastName := (name.bind (·.lastName)).map trim
  if truthy firstName && truthy lastName then some (fullName cfg firstName lastName) else none

/-- The roots, the newest first, in the stable order of `sort`. -/
def newestFirst (roots : List ContactMatch) : List ContactMatch :=
  roots.mergeSort fun a b => b.time - a.time ≤ 0

/-- The newest root, unless the second is as new. -/
def newestRoot (roots : List ContactMatch) : Option ContactMatch :=
  match newestFirst roots with
  | newest :: second :: _ => if newest.time ≠ second.time then some newest else none
  | _ => none

def resolveEligibleMatch (cfg : Config) (candidates : List ContactMatch)
    (name : Option RequestedName) : Option ContactMatch :=
  let subset : List ContactMatch := match providedName cfg name with
    | some provided => candidates.filter fun candidate => candidate.fullName cfg = provided
    | none => candidates
  match subset with
  | [] => none
  | [candidate] => some candidate
  | subset =>
    match subset.filter (·.isRoot) with
    | [root] => some root
    | roots =>
      if (providedName cfg name).isSome && 1 < roots.length then newestRoot roots else none

/-- What the queries ask of an invitation's contacts.  `lower` is the database's. -/
def contactCondition (lower : String → String) (identifier : NormalizedIdentifier)
    (i : Invitation) : Bool :=
  match identifier.channel with
  | .email => i.email.map lower = some identifier.value
  | .whatsapp =>
    let digits := String.ofList (identifier.value.toList.drop 1)
    digitsOf (i.phoneNumber.getD "") = digits ||
      i.phoneNumbers.any fun p => digitsOf (p.countryCode ++ p.number) = digits

/-- The columns selected of an invitation and of the settings of its event. -/
def contactMatch (i : Invitation) (esp : EventSettings) : ContactMatch where
  guestProfileId := i.guestProfileId
  status := i.status
  eventEndsAt := (i.eventEndsAt <|> esp.endsAt).map Int.ofNat
  firstName := some i.firstName
  lastName := some i.lastName
  invitedByInvitationId := i.invitedByInvitationId
  updatedAt := i.updatedAt.map Int.ofNat

/-- The queries leave the order of the rows open; here it is that of the table. -/
def findMatches (lower : String → String) (identifier : NormalizedIdentifier)
    (tenantId : TenantId) : Query (List ContactMatch) :=
  Block.call (.dependency .database) fun w =>
    (.ok ((w.db.invitations.select (contactCondition lower identifier)).filterMap fun i =>
      ((w.db.settings i.eventId).filter (·.tenantId = some tenantId)).map (contactMatch i)), w)

def eligible (now : Nat) (found : List ContactMatch) : List ContactMatch :=
  found.filter fun candidate =>
    (candidate.status = .approved || candidate.status = .accepted) &&
      candidate.eventEndsAt.any (fun endsAt => (now : Int) < endsAt) &&
      candidate.guestProfileId.isSome

end GuestMagicLink
end InvitationService

import InvitationService.Model.Types
import Mathlib.Data.Finset.Card
import Mathlib.Tactic.Simps.Basic
import Mathlib.Data.Finset.Range

namespace InvitationService

inductive CountUpdate
  | set (n : Int)
  | increment (n : Int)
  deriving DecidableEq, Repr

def CountUpdate.apply : CountUpdate → Int → Int
  | .set n, _ => n
  | .increment n, m => m + n

/-- What a column of the type `Int` can hold. -/
def fitsInt (n : Int) : Bool := -2147483648 ≤ n && n ≤ 2147483647

theorem fitsInt_iff {n : Int} : fitsInt n = true ↔ -2147483648 ≤ n ∧ n ≤ 2147483647 := by
  simp [fitsInt]

/-- The `data` of an update: a field that is `none` is left alone. -/
structure InvitationUpdate where
  firstName : Option String := none
  lastName : Option String := none
  guestProfileId : Option (Option UserId) := none
  email : Option (Option String) := none
  phoneNumber : Option (Option String) := none
  selectedInvitedBy : Option (List String) := none
  guestNote : Option (Option String) := none
  plusOneAgeCategory : Option (Option PlusOneAgeCategory) := none
  status : Option InvitationStatus := none
  pendingContactId : Option (Option Nat) := none
  pendingContactPayload : Option (Option PendingUser) := none
  confirmationSentAt : Option (Option Nat) := none
  confirmationResendCount : Option CountUpdate := none
  rsvpChoice : Option (Option RsvpChoice) := none
  rsvpAt : Option (Option Nat) := none
  approvedAt : Option (Option Nat) := none
  approvedByUserId : Option (Option UserId) := none
  maxInvitees : Option CountUpdate := none
  phoneNumbers : Option (List PhoneNumber) := none

/-- Every update also stamps `updatedAt`. -/
def InvitationUpdate.apply (d : InvitationUpdate) (now : Nat) (r : Invitation) :
    Invitation :=
  { r with
    firstName := d.firstName.getD r.firstName
    lastName := d.lastName.getD r.lastName
    guestProfileId := d.guestProfileId.getD r.guestProfileId
    email := d.email.getD r.email
    phoneNumber := d.phoneNumber.getD r.phoneNumber
    selectedInvitedBy := d.selectedInvitedBy.getD r.selectedInvitedBy
    guestNote := d.guestNote.getD r.guestNote
    plusOneAgeCategory := d.plusOneAgeCategory.getD r.plusOneAgeCategory
    status := d.status.getD r.status
    pendingContactId := d.pendingContactId.getD r.pendingContactId
    pendingContactPayload := d.pendingContactPayload.getD r.pendingContactPayload
    confirmationSentAt := d.confirmationSentAt.getD r.confirmationSentAt
    confirmationResendCount :=
      (d.confirmationResendCount.getD (.increment 0)).apply r.confirmationResendCount
    rsvpChoice := d.rsvpChoice.getD r.rsvpChoice
    rsvpAt := d.rsvpAt.getD r.rsvpAt
    approvedAt := d.approvedAt.getD r.approvedAt
    approvedByUserId := d.approvedByUserId.getD r.approvedByUserId
    maxInvitees := (d.maxInvitees.getD (.increment 0)).apply r.maxInvitees
    phoneNumbers := d.phoneNumbers.getD r.phoneNumbers
    updatedAt := some now }

/-- The counter that the update writes is one that the column can hold. -/
def InvitationUpdate.fits (d : InvitationUpdate) (r : Invitation) : Bool :=
  d.maxInvitees.all fun n => fitsInt (n.apply r.maxInvitees)

section

variable (d : InvitationUpdate) (now : Nat) (r : Invitation)

theorem InvitationUpdate.fits_of_none (h : d.maxInvitees = none) : d.fits r = true := by
  rw [fits, h]
  rfl

@[simp] theorem InvitationUpdate.apply_id : (d.apply now r).id = r.id := rfl
@[simp] theorem InvitationUpdate.apply_eventId : (d.apply now r).eventId = r.eventId := rfl
@[simp] theorem InvitationUpdate.apply_invitedByInvitationId :
    (d.apply now r).invitedByInvitationId = r.invitedByInvitationId := rfl

end

/-- The `data` of a write to `EventSettingsProjection`: a field that is `none` is left alone. -/
structure EventSettingsData where
  tenantId : TenantId
  name : Nullish String := none
  startsAt : Nullish Nat := none
  endsAt : Nullish Nat := none
  approvalMode : Nullish String := none
  allowPublicRsvp : Option Bool := none
  requireApprovalForPlusOnes : Option Bool := none
  scheduleTicketRelease : Option Bool := none
  guestConfirmationReminderEnabled : Option Bool := none
  guestConfirmationReminderPresets : Option (List String) := none
  guestConfirmationMaxResends : Nullish Int := none
  rsvpDeadline : Nullish Nat := none
  maxSeats : Nullish Int := none
  ticketReleaseAt : Nullish Nat := none

namespace EventSettingsData

def apply (d : EventSettingsData) (x : EventSettings) : EventSettings where
  tenantId := some d.tenantId
  name := d.name.getD x.name
  startsAt := d.startsAt.getD x.startsAt
  endsAt := d.endsAt.getD x.endsAt
  approvalMode := d.approvalMode.getD x.approvalMode
  allowPublicRsvp := d.allowPublicRsvp.getD x.allowPublicRsvp
  requireApprovalForPlusOnes := d.requireApprovalForPlusOnes.getD x.requireApprovalForPlusOnes
  rsvpDeadline := d.rsvpDeadline.getD x.rsvpDeadline
  maxSeats := d.maxSeats.getD x.maxSeats
  scheduleTicketRelease := d.scheduleTicketRelease.getD x.scheduleTicketRelease
  ticketReleaseAt := d.ticketReleaseAt.getD x.ticketReleaseAt
  guestConfirmationReminderEnabled :=
    d.guestConfirmationReminderEnabled.getD x.guestConfirmationReminderEnabled
  guestConfirmationReminderPresets :=
    d.guestConfirmationReminderPresets.getD x.guestConfirmationReminderPresets
  guestConfirmationMaxResends := d.guestConfirmationMaxResends.getD x.guestConfirmationMaxResends
  updatedAt := x.updatedAt

def insert (d : EventSettingsData) : EventSettings := d.apply {}

def fits (d : EventSettingsData) : Bool :=
  d.maxSeats.join.all fitsInt && d.guestConfirmationMaxResends.join.all fitsInt

end EventSettingsData

/-- The stamps of a new row. -/
@[simps]
def Invitation.stamped (r : Invitation) (now : Nat) : Invitation :=
  { r with createdAt := now, updatedAt := some now }

@[simps]
def Invitation.withId (r : Invitation) (i : Nat) : Invitation := { r with id := i }

/-- The rows of `Invitation`, keyed by id.  Ids are handed out in order and never
again; a row's parent is an older row that still exists. -/
structure InvitationTable where
  next : Nat
  row : Nat → Option Invitation
  id_lt : ∀ {i r}, row i = some r → i < next
  id_eq : ∀ {i r}, row i = some r → r.id = i
  parent_lt : ∀ {i r p}, row i = some r → r.invitedByInvitationId = some p → p < i
  parent_row : ∀ {i r p}, row i = some r → r.invitedByInvitationId = some p →
    (row p).isSome

namespace InvitationTable

@[ext] theorem ext {t u : InvitationTable} (hn : t.next = u.next) (hr : t.row = u.row) :
    t = u := by
  cases t; cases u; cases hn; cases hr; rfl

def empty : InvitationTable where
  next := 0
  row _ := none
  id_lt h := by cases h
  id_eq h := by cases h
  parent_lt h := by cases h
  parent_row h := by cases h

theorem row_next (t : InvitationTable) : t.row t.next = none := by
  cases h : t.row t.next with
  | none => rfl
  | some r => exact absurd (t.id_lt h) (Nat.lt_irrefl _)

/-- The foreign key of `invitedByInvitationId`. -/
def ParentExists (t : InvitationTable) (p : Option Nat) : Prop :=
  ∀ q, p = some q → (t.row q).isSome

instance (t : InvitationTable) (p : Option Nat) : Decidable (t.ParentExists p) :=
  match p with
  | none => isTrue (by intro q h; cases h)
  | some q => decidable_of_iff ((t.row q).isSome = true)
      ⟨fun h _ hq => by cases hq; exact h, fun h => h q rfl⟩

theorem ParentExists.lt {t : InvitationTable} {p : Nat}
    (h : t.ParentExists (some p)) : p < t.next := by
  obtain ⟨r, hr⟩ := Option.isSome_iff_exists.1 (h p rfl)
  exact t.id_lt hr

def insert (t : InvitationTable) (r : Invitation)
    (h : t.ParentExists r.invitedByInvitationId) : InvitationTable where
  next := t.next + 1
  row i := if i = t.next then some (r.withId t.next) else t.row i
  id_lt {i s} hs := by
    split at hs
    · omega
    · exact Nat.lt_succ_of_lt (t.id_lt hs)
  id_eq {i s} hs := by
    split at hs
    · cases hs; simp_all
    · exact t.id_eq hs
  parent_lt {i s p} hs hp := by
    split at hs
    · cases hs
      have := ParentExists.lt (fun q hq => h q (hp.trans hq))
      omega
    · exact t.parent_lt hs hp
  parent_row {i s p} hs hp := by
    by_cases hpn : p = t.next
    · simp [hpn]
    · simp only [hpn, if_false]
      split at hs
      · cases hs; exact h p hp
      · exact t.parent_row hs hp

/-- Update the row `i`, if there is one. -/
def patch (t : InvitationTable) (i : Nat) (d : InvitationUpdate) (now : Nat) :
    InvitationTable where
  next := t.next
  row j := if j = i then (t.row j).map (d.apply now) else t.row j
  id_lt {j s} hs := by
    split at hs
    · obtain ⟨r, hr, -⟩ := Option.map_eq_some_iff.1 hs
      exact t.id_lt hr
    · exact t.id_lt hs
  id_eq {j s} hs := by
    split at hs
    · obtain ⟨r, hr, rfl⟩ := Option.map_eq_some_iff.1 hs
      exact (t.id_eq hr : r.id = j)
    · exact t.id_eq hs
  parent_lt {j s p} hs hp := by
    split at hs
    · obtain ⟨r, hr, rfl⟩ := Option.map_eq_some_iff.1 hs
      exact t.parent_lt hr hp
    · exact t.parent_lt hs hp
  parent_row {j s p} hs hp := by
    have : (t.row p).isSome := by
      split at hs
      · obtain ⟨r, hr, rfl⟩ := Option.map_eq_some_iff.1 hs
        exact t.parent_row hr hp
      · exact t.parent_row hs hp
    split
    · simpa using this
    · exact this

def parent (t : InvitationTable) (i : Nat) : Option Nat :=
  (t.row i).bind (·.invitedByInvitationId)

theorem parent_eq_some {t : InvitationTable} {i p : Nat} :
    t.parent i = some p ↔ ∃ r, t.row i = some r ∧ r.invitedByInvitationId = some p := by
  simp [parent, Option.bind_eq_some_iff]

/-- `i` or one of its first `fuel` ancestors is in `roots`. -/
def underWithin (t : InvitationTable) (roots : Nat → Bool) :
    Nat → Nat → Bool
  | 0, i => roots i
  | fuel + 1, i => roots i || match t.parent i with
    | some p => t.underWithin roots fuel p
    | none => false

/-- `i` or one of its ancestors is in `roots`; an id is older than its children,
so a row `i` has at most `i` ancestors. -/
def under (t : InvitationTable) (roots : Nat → Bool) (i : Nat) : Bool :=
  t.underWithin roots i i

theorem underWithin_stable (t : InvitationTable) (roots : Nat → Bool)
    (fuel i : Nat) (h : i ≤ fuel) : t.underWithin roots fuel i = t.under roots i := by
  induction i using Nat.strongRecOn generalizing fuel with
  | ind i ih =>
    cases hp : t.parent i with
    | none => cases fuel <;> cases i <;> simp [under, underWithin, hp]
    | some p =>
      obtain ⟨r, hr, hrp⟩ := parent_eq_some.1 hp
      have hpi := t.parent_lt hr hrp
      obtain ⟨n, rfl⟩ : ∃ n, i = n + 1 := ⟨i - 1, by omega⟩
      obtain ⟨m, rfl⟩ : ∃ m, fuel = m + 1 := ⟨fuel - 1, by omega⟩
      simp only [under, underWithin, hp]
      rw [ih p hpi m (by omega), ih p hpi n (by omega)]

theorem under_eq (t : InvitationTable) (roots : Nat → Bool) (i : Nat) :
    t.under roots i = (roots i || match t.parent i with
      | some p => t.under roots p
      | none => false) := by
  rw [← t.underWithin_stable roots (i + 1) i (by omega), underWithin]
  cases hp : t.parent i with
  | none => rfl
  | some p =>
    obtain ⟨r, hr, hrp⟩ := parent_eq_some.1 hp
    have := t.parent_lt hr hrp
    simp only [t.underWithin_stable roots i p (by omega)]

theorem under_of_root {t : InvitationTable} {roots : Nat → Bool} {i : Nat}
    (h : roots i = true) : t.under roots i = true := by
  rw [under_eq, h]; rfl

theorem under_of_parent {t : InvitationTable} {roots : Nat → Bool}
    {i p : Nat} (hp : t.parent i = some p) (h : t.under roots p = true) :
    t.under roots i = true := by
  simp [under_eq t roots i, hp, h]

/-- Delete the rows in `roots`; the foreign key cascades to their descendants. -/
def remove (t : InvitationTable) (roots : Nat → Bool) : InvitationTable where
  next := t.next
  row i := if t.under roots i then none else t.row i
  id_lt {i r} h := by
    split at h
    · cases h
    · exact t.id_lt h
  id_eq {i r} h := by
    split at h
    · cases h
    · exact t.id_eq h
  parent_lt {i r p} h hp := by
    split at h
    · cases h
    · exact t.parent_lt h hp
  parent_row {i r p} h hp := by
    split at h
    · cases h
    · rename_i hu
      split
      · rename_i hup
        exact absurd (under_of_parent (parent_eq_some.2 ⟨r, h, hp⟩) hup) hu
      · exact t.parent_row h hp

/-- The ids of the rows that satisfy `q`, in the order of their creation. -/
def ids (t : InvitationTable) (q : Invitation → Bool) : List Nat :=
  (List.range t.next).filter fun i => (t.row i).any q

def select (t : InvitationTable) (q : Invitation → Bool) : List Invitation :=
  ((List.range t.next).filterMap t.row).filter q

def children (t : InvitationTable) (p : Nat) : Finset Nat :=
  (Finset.range t.next).filter fun i => t.parent i = some p

theorem mem_children {t : InvitationTable} {p i : Nat} :
    i ∈ t.children p ↔ ∃ r, t.row i = some r ∧ r.invitedByInvitationId = some p := by
  simp only [children, Finset.mem_filter, Finset.mem_range, parent_eq_some]
  exact ⟨fun h => h.2, fun h => ⟨h.elim fun r hr => t.id_lt hr.1, h⟩⟩

theorem mem_select {t : InvitationTable} {q : Invitation → Bool} {r : Invitation} :
    r ∈ t.select q ↔ t.row r.id = some r ∧ q r = true := by
  simp only [select, List.mem_filter, List.mem_filterMap, List.mem_range]
  constructor
  · rintro ⟨⟨i, -, hi⟩, hq⟩
    exact ⟨t.id_eq hi ▸ hi, hq⟩
  · rintro ⟨hr, hq⟩
    exact ⟨⟨r.id, t.id_lt hr, hr⟩, hq⟩

theorem select_ids (t : InvitationTable) (q : Invitation → Bool) :
    (t.select q).map (·.id) = t.ids q := by
  unfold select ids
  induction List.range t.next with
  | nil => rfl
  | cons i l ih =>
    cases h : t.row i with
    | none => simp [h, ih]
    | some r =>
      have hi := t.id_eq h
      cases hq : q r <;> simp [h, hq, hi, ih]

theorem nodup_ids (t : InvitationTable) (q : Invitation → Bool) : (t.ids q).Nodup :=
  List.nodup_range.filter _

theorem mem_ids {t : InvitationTable} {q : Invitation → Bool} {i : Nat} :
    i ∈ t.ids q ↔ ∃ r, t.row i = some r ∧ q r = true := by
  simp only [ids, List.mem_filter, List.mem_range, Option.any_eq_true]
  exact ⟨fun h => h.2, fun h => ⟨h.elim fun r hr => t.id_lt hr.1, h⟩⟩

theorem card_children (t : InvitationTable) (p : Nat) :
    (t.children p).card = (t.select (·.invitedByInvitationId = some p)).length := by
  rw [← List.length_map (f := (·.id)), select_ids, ← List.toFinset_card_of_nodup (nodup_ids ..)]
  congr 1
  ext i
  simp [mem_children, mem_ids]

@[simp] theorem insert_next (t : InvitationTable) (r : Invitation) (h) :
    (t.insert r h).next = t.next + 1 := rfl

@[simp] theorem patch_next (t : InvitationTable) (i d now) :
    (t.patch i d now).next = t.next := rfl

@[simp] theorem remove_next (t : InvitationTable) (roots) : (t.remove roots).next = t.next :=
  rfl

theorem insert_row (t : InvitationTable) (r : Invitation) (h) (i : Nat) :
    (t.insert r h).row i = if i = t.next then some (r.withId t.next) else t.row i := rfl

theorem patch_row (t : InvitationTable) (i d now) (j : Nat) :
    (t.patch i d now).row j = if j = i then (t.row j).map (d.apply now) else t.row j := rfl

theorem remove_row (t : InvitationTable) (roots) (i : Nat) :
    (t.remove roots).row i = if t.under roots i then none else t.row i := rfl

@[simp] theorem patch_row_self (t : InvitationTable) (i d now) :
    (t.patch i d now).row i = (t.row i).map (d.apply now) := by simp [patch_row]

theorem patch_row_of_ne {t : InvitationTable} {i j : Nat} (h : j ≠ i) (d now) :
    (t.patch i d now).row j = t.row j := by simp [patch_row, h]

@[simp] theorem isSome_patch_row (t : InvitationTable) (i d now) (j : Nat) :
    ((t.patch i d now).row j).isSome = (t.row j).isSome := by
  rw [patch_row]
  split <;> simp

end InvitationTable
end InvitationService

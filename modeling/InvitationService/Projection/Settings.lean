import InvitationService.Projection.Role

open Relation (ReflTransGen)

namespace InvitationService

open Resumption Query EventRoleHandler EventSettingsHandler

variable {cfg : Config} {s t w : World} {e : EventId}

def EventSettings.content (x : EventSettings) : EventSettings := { x with updatedAt := none }

/-- Updates of an event's settings, each with its tenant header. -/
abbrev Updates := List (EventUpdatedDTO × TenantId)

/-- What the newest of the updates that have the field says of it, be it `null`. -/
def Updates.lastSent (us : Updates) (field : EventUpdatedDTO → Nullish α) : Nullish α :=
  us.reverse.findSome? fun u => field u.1

/-- The newest value of the field in the updates, to which `null` adds nothing. -/
def Updates.lastValue (us : Updates) (field : EventUpdatedDTO → Nullish α) : Option α :=
  us.reverse.findSome? fun u => (field u.1).join

/-- The settings of an event created by `p` and changed by `us`, in this order.  A date is what
the newest update that has it says, and `null` takes it away; every other field has the newest
value it was given. -/
def settingsAfter (cfg : Config) (p : EventCreatedDTO) (tenantId : TenantId) (us : Updates) :
    EventSettings where
  tenantId := some ((us.getLast?.map (·.2)).getD tenantId)
  name := (us.lastValue (·.name)).or p.name.join
  startsAt := (us.lastSent (·.startsAt)).getD p.startsAt.join
  endsAt := (us.lastSent (·.endsAt)).getD p.endsAt.join
  approvalMode := (us.lastValue (·.approvalMode)).or p.approvalMode.join
  allowPublicRsvp := (us.lastValue (·.allowPublicRsvp)).getD (p.allowPublicRsvp.getD false)
  requireApprovalForPlusOnes :=
    (us.lastValue (·.requireApprovalForPlusOnes)).getD (p.requireApprovalForPlusOnes.join.getD true)
  rsvpDeadline := (us.lastSent (·.rsvpDeadline)).getD p.rsvpDeadline.join
  maxSeats := (us.lastValue (·.maxSeats)).or p.maxSeats.join
  scheduleTicketRelease :=
    (us.lastValue (·.scheduleTicketRelease)).getD (p.scheduleTicketRelease.join.getD false)
  ticketReleaseAt := (us.lastSent (·.ticketReleaseAt)).getD p.ticketReleaseAt.join
  guestConfirmationReminderEnabled := (us.lastValue (·.guestConfirmationReminderEnabled)).getD
    (p.guestConfirmationReminderEnabled.join.getD true)
  guestConfirmationReminderPresets := (us.lastValue (·.guestConfirmationReminderPresets)).getD
    (p.guestConfirmationReminderPresets.join.getD cfg.guestReminderPresets)
  guestConfirmationMaxResends := (us.lastValue (·.guestConfirmationMaxResends)).or
    p.guestConfirmationMaxResends.join

/-- The settings have what the creation of the event says: every field it has, and the
defaults of the others but the name, the approval mode, the public RSVP and the seats. -/
structure Restates (cfg : Config) (p : EventCreatedDTO) (tenantId : TenantId) (x : EventSettings) :
    Prop where
  tenantId : x.tenantId = some tenantId
  name : ∀ v, p.name = some v → x.name = v
  startsAt : x.startsAt = p.startsAt.join
  endsAt : x.endsAt = p.endsAt.join
  approvalMode : ∀ v, p.approvalMode = some v → x.approvalMode = v
  allowPublicRsvp : ∀ v, p.allowPublicRsvp = some v → x.allowPublicRsvp = v
  requireApprovalForPlusOnes :
    x.requireApprovalForPlusOnes = p.requireApprovalForPlusOnes.join.getD true
  rsvpDeadline : x.rsvpDeadline = p.rsvpDeadline.join
  maxSeats : ∀ v, p.maxSeats = some v → x.maxSeats = v
  scheduleTicketRelease : x.scheduleTicketRelease = p.scheduleTicketRelease.join.getD false
  ticketReleaseAt : x.ticketReleaseAt = p.ticketReleaseAt.join
  guestConfirmationReminderEnabled :
    x.guestConfirmationReminderEnabled = p.guestConfirmationReminderEnabled.join.getD true
  guestConfirmationReminderPresets : x.guestConfirmationReminderPresets =
    p.guestConfirmationReminderPresets.join.getD cfg.guestReminderPresets
  guestConfirmationMaxResends : x.guestConfirmationMaxResends = p.guestConfirmationMaxResends.join

section

variable {p : EventCreatedDTO} {tenantId : TenantId} {us : Updates}
  {u : EventUpdatedDTO × TenantId} {field : EventUpdatedDTO → Nullish α} {x : EventSettings}

theorem Updates.lastSent_concat : lastSent (us ++ [u]) field = (field u.1).or
    (us.lastSent field) := by
  rw [lastSent, List.reverse_append, List.reverse_singleton, List.singleton_append,
    List.findSome?_cons]
  cases field u.1 <;> rfl

theorem Updates.lastValue_concat :
    lastValue (us ++ [u]) field = (field u.1).join.or (us.lastValue field) := by
  rw [lastValue, List.reverse_append, List.reverse_singleton, List.singleton_append,
    List.findSome?_cons]
  cases (field u.1).join <;> rfl

theorem createdSettings_insert :
    (createdSettings cfg p tenantId).insert = settingsAfter cfg p tenantId [] := by
  have hjoin : ∀ {α : Type} (y : Nullish α), y.getD none = y.join := fun y => by cases y <;> rfl
  simp only [EventSettingsData.insert, EventSettingsData.apply, createdSettings, hjoin]
  rfl

theorem settingsAfter_concat : settingsAfter cfg p tenantId (us ++ [u]) =
    (patchSettings u.1 u.2).apply (settingsAfter cfg p tenantId us) := by
  have hor : ∀ {α : Type} (y z v : Option α), (y.or z).or v = (y.map some).getD (z.or v) :=
    fun y z v => by cases y <;> rfl
  simp [settingsAfter, EventSettingsData.apply, patchSettings, Updates.lastSent_concat,
    Updates.lastValue_concat, hor, Option.getD_or]

theorem patchSettings_patchSettings : (patchSettings u.1 u.2).apply
    ((patchSettings u.1 u.2).apply x) = (patchSettings u.1 u.2).apply x := by
  have hget : ∀ {α : Type} (y : Option α) (z : α), y.getD (y.getD z) = y.getD z := fun y z => by
    cases y <;> rfl
  simp only [EventSettingsData.apply, hget]

theorem createdSettings_apply_eq_iff :
    (createdSettings cfg p tenantId).apply x = x ↔ Restates cfg p tenantId x := by
  have hraw : ∀ {α : Type} (y : Option α) (z : α), y.getD z = z ↔ ∀ v, y = some v → z = v :=
    fun y z => by
      cases y with
      | none => simp
      | some v => simp [eq_comm]
  constructor
  · intro h
    have hfield : ∀ {α : Type} (f : EventSettings → α),
      f ((createdSettings cfg p tenantId).apply x) =
      f x := fun f => congrArg f h
    exact {
      tenantId := (hfield (·.tenantId)).symm
      name := (hraw ..).1 (hfield (·.name))
      startsAt := (hfield (·.startsAt)).symm
      endsAt := (hfield (·.endsAt)).symm
      approvalMode := (hraw ..).1 (hfield (·.approvalMode))
      allowPublicRsvp := (hraw ..).1 (hfield (·.allowPublicRsvp))
      requireApprovalForPlusOnes := (hfield (·.requireApprovalForPlusOnes)).symm
      rsvpDeadline := (hfield (·.rsvpDeadline)).symm
      maxSeats := (hraw ..).1 (hfield (·.maxSeats))
      scheduleTicketRelease := (hfield (·.scheduleTicketRelease)).symm
      ticketReleaseAt := (hfield (·.ticketReleaseAt)).symm
      guestConfirmationReminderEnabled := (hfield (·.guestConfirmationReminderEnabled)).symm
      guestConfirmationReminderPresets := (hfield (·.guestConfirmationReminderPresets)).symm
      guestConfirmationMaxResends := (hfield (·.guestConfirmationMaxResends)).symm }
  · intro h
    simp only [EventSettingsData.apply, createdSettings, Option.getD_some, ← h.tenantId,
      (hraw ..).2 h.name, ← h.startsAt, ← h.endsAt, (hraw ..).2 h.approvalMode,
      (hraw ..).2 h.allowPublicRsvp, ← h.requireApprovalForPlusOnes, ← h.rsvpDeadline,
      (hraw ..).2 h.maxSeats, ← h.scheduleTicketRelease, ← h.ticketReleaseAt,
      ← h.guestConfirmationReminderEnabled, ← h.guestConfirmationReminderPresets,
      ← h.guestConfirmationMaxResends]

end

def WrittenSettings (e : EventId) (x : EventSettings) (s v : World) : Prop :=
  ∃ n, s.now ≤ n ∧ n ≤ v.now ∧ v.db.settings e = some { x with updatedAt := some n }

theorem settling_upsertSettings {create update : EventSettingsData}
    (ht : Quiet s t) : Settling (perform (upsertSettings e create update))
      (WrittenSettings e (((s.db.settings e).map update.apply).getD create.insert) s) t := by
  refine guarantees_perform fun v hv => Block.post_call.2 ⟨⟨trivial, nofun⟩, ?_⟩
  split
  · exact ⟨trivial, fun _ => ⟨v.now, ht.2.trans hv.2, Nat.le_refl _, by simp [hv.1, ht.1]⟩⟩
  · exact ⟨trivial, nofun⟩

theorem settling_eventCreated {p : EventCreatedDTO} {tenantId : TenantId} :
    Settling (handleEventCreated cfg p (some tenantId)) (WrittenSettings p.eventId
      (((s.db.settings p.eventId).map (createdSettings cfg p tenantId).apply).getD
        (createdSettings cfg p tenantId).insert) s) s :=
  settling_upsertSettings ⟨rfl, Nat.le_refl _⟩

theorem settling_eventUpdated {u : EventUpdatedDTO} {tenantId : TenantId} :
    Settling (handleEventUpdated cfg u (some tenantId)) (fun v =>
      if isStale u.occurredAt ((s.db.settings u.eventId).bind (·.updatedAt)) then
        v.db.settings u.eventId = s.db.settings u.eventId
      else WrittenSettings u.eventId
        (((s.db.settings u.eventId).map (patchSettings u tenantId).apply).getD
          (updatedSettings cfg u tenantId).insert) s v) s := by
  refine Prog.Guarantees.bind <| guarantees_perform fun t ht => Block.post_call.2
    ⟨⟨trivial, nofun⟩, trivial, ?_⟩
  dsimp only
  rw [ht.1]
  split
  · exact fun _ => by rw [ht.1]
  · exact settling_upsertSettings ht

def Call.settingsUpdate : Call → Option (EventUpdatedDTO × TenantId)
  | .eventUpdated u (some tenantId) => some (u, tenantId)
  | _ => none

/-- The updates delivered in `h`, each once, in the order in which they first came. -/
def updatesOf (h : List CallRecord) : Updates :=
  (h.filterMap fun x => x.call.call.settingsUpdate).eraseDups

/-- Deliveries of the message `p` that creates an event and of its updates, the latter first
delivered in the order in which they happened, each as often as it comes; all are handled, and
none before it happened. -/
structure SettingsRun (p : EventCreatedDTO) (tenantId : TenantId) (h : List CallRecord) : Prop where
  message : ∀ x ∈ h, x.call.call = .eventCreated p (some tenantId) ∨
    ∃ u tu, x.call.call = .eventUpdated u (some tu) ∧ u.eventId = p.eventId
  first : ∀ x, h.head? = some x → x.call.call = .eventCreated p (some tenantId)
  increasing : (updatesOf h).Pairwise fun u u' => u.1.occurredAt < u'.1.occurredAt
  handled : ∀ x ∈ h, x.outcome = .ok ()
  clock : ∀ x ∈ h, ∀ u, x.call.call.settingsUpdate = some u → u.1.occurredAt ≤ x.before.now

/-- The projection holds the settings as created and then changed by every update in `h`. -/
def Reflects (cfg : Config) (p : EventCreatedDTO) (tenantId : TenantId) (h : List CallRecord)
    (w : World) : Prop :=
  (w.db.settings p.eventId).map (·.content) = some (settingsAfter cfg p tenantId (updatesOf h))

/-- The message `x`, after `g`, is an update that comes for the first time and is dropped as
stale. -/
def Dropped (g : List CallRecord) (x : CallRecord) : Prop :=
  ∃ u, x.call.call.settingsUpdate = some u ∧ u ∉ updatesOf g ∧
    isStale u.1.occurredAt ((x.before.db.settings u.1.eventId).bind (·.updatedAt)) = true

/-- The message `x`, after `g`, comes in time: an update that comes for the first time happened
no earlier than the projection was last written, and the creation comes again only while the
settings, as the updates so far leave them, have what it says. -/
def Timely (cfg : Config) (p : EventCreatedDTO) (tenantId : TenantId) (g : List CallRecord)
    (x : CallRecord) : Prop :=
  match x.call.call.settingsUpdate with
  | some u => u ∈ updatesOf g ∨
      ∀ n, (x.before.db.settings p.eventId).bind (·.updatedAt) = some n → n ≤ u.1.occurredAt
  | none => g = [] ∨ Restates cfg p tenantId (settingsAfter cfg p tenantId (updatesOf g))

variable {p : EventCreatedDTO} {tenantId : TenantId} {g h : List CallRecord} {x : CallRecord}

theorem updatesOf_concat_of_none (hx : x.call.call.settingsUpdate = none) :
    updatesOf (g ++ [x]) = updatesOf g := by
  rw [updatesOf, List.filterMap_append]
  simp [hx, updatesOf]

theorem updatesOf_concat_of_mem {u : EventUpdatedDTO × TenantId}
    (hx : x.call.call.settingsUpdate = some u) (hu : u ∈ updatesOf g) :
    updatesOf (g ++ [x]) = updatesOf g := by
  rw [updatesOf, List.mem_eraseDups, List.mem_filterMap] at hu
  rw [updatesOf, List.filterMap_append, List.eraseDups_append]
  simp [hx, List.removeAll, hu, updatesOf]

theorem updatesOf_concat_of_notMem {u : EventUpdatedDTO × TenantId}
    (hx : x.call.call.settingsUpdate = some u) (hu : u ∉ updatesOf g) :
    updatesOf (g ++ [x]) = updatesOf g ++ [u] := by
  rw [updatesOf, List.mem_eraseDups, List.mem_filterMap] at hu
  rw [updatesOf, List.filterMap_append, List.eraseDups_append]
  simp [hx, List.removeAll, hu, updatesOf, List.eraseDups_cons]

theorem SettingsRun.append {g' : List CallRecord} (hrun : SettingsRun p tenantId (g ++ g')) :
    SettingsRun p tenantId g where
  message x hx := hrun.message x (List.mem_append_left _ hx)
  first x hx := hrun.first x (by rw [List.head?_append, hx]; rfl)
  increasing := by
    have hi := hrun.increasing
    rw [updatesOf, List.filterMap_append, List.eraseDups_append] at hi
    exact (List.pairwise_append.1 hi).1
  handled x hx := hrun.handled x (List.mem_append_left _ hx)
  clock x hx := hrun.clock x (List.mem_append_left _ hx)

theorem SettingsRun.row_cases {q : Request} {r : Except Exception Unit}
    (hrun : SettingsRun p tenantId (g ++ [⟨s, q, r⟩]))
    (hex : Prog.Exec (ReflTransGen (service cfg).env) ((service cfg).exec q)
      ((service cfg).arrive q s) r t) :
    (q.call.settingsUpdate = none ∧ WrittenSettings p.eventId
      (((s.db.settings p.eventId).map (createdSettings cfg p tenantId).apply).getD
        (createdSettings cfg p tenantId).insert) s t) ∨
      ∃ u, q.call.settingsUpdate = some u ∧ u.1.eventId = p.eventId ∧
        if isStale u.1.occurredAt ((s.db.settings p.eventId).bind (·.updatedAt)) then
          t.db.settings p.eventId = s.db.settings p.eventId
        else WrittenSettings p.eventId (((s.db.settings p.eventId).map
          (patchSettings u.1 u.2).apply).getD (updatedSettings cfg u.1 u.2).insert) s t := by
  have hr : r = .ok () := hrun.handled ⟨s, q, r⟩ (by simp)
  subst hr
  obtain ⟨c, ctx⟩ := q
  rcases hrun.message ⟨s, ⟨c, ctx⟩, .ok ()⟩ (by simp) with hc | ⟨u, tu, hc, he⟩
  · obtain rfl : c = _ := hc
    exact .inl ⟨rfl, hex.ends settling_eventCreated (fun _ _ => environments_quiet) rfl⟩
  · obtain rfl : c = _ := hc
    refine .inr ⟨(u, tu), rfl, he, ?_⟩
    rw [← he]
    exact hex.ends settling_eventUpdated (fun _ _ => environments_quiet) rfl

def Stamped (p : EventCreatedDTO) (h : List CallRecord) (w : World) : Prop :=
  ∃ x n, w.db.settings p.eventId = some x ∧ x.updatedAt = some n ∧ n ≤ w.now ∧
    ∀ u ∈ updatesOf h, u.1.occurredAt ≤ n

theorem WrittenSettings.content {x : EventSettings} (hw : WrittenSettings e x s t) :
    (t.db.settings e).map (·.content) = some x.content := by
  obtain ⟨n, -, -, hn⟩ := hw
  rw [hn]
  rfl

theorem EventSettingsData.apply_content (d : EventSettingsData) (x : EventSettings) :
    (d.apply x).content = d.apply x.content := rfl

theorem WrittenSettings.stamped {x : EventSettings} (hw : WrittenSettings p.eventId x s t)
    (hg : ∀ u ∈ updatesOf g, u.1.occurredAt ≤ s.now) : Stamped p g t := by
  obtain ⟨n, hle, hn, hrow⟩ := hw
  exact ⟨_, n, hrow, rfl, hn, fun u hu => (hg u hu).trans hle⟩

theorem SettingsRun.step_first {q : Request} {r : Except Exception Unit}
    (hrun : SettingsRun p tenantId [⟨s, q, r⟩]) (h₀ : s.db.settings p.eventId = none)
    (hex : Prog.Exec (ReflTransGen (service cfg).env) ((service cfg).exec q)
      ((service cfg).arrive q s) r t) :
    Stamped p [⟨s, q, r⟩] t ∧ Reflects cfg p tenantId [⟨s, q, r⟩] t := by
  have hq := hrun.first ⟨s, q, r⟩ rfl
  have hus : updatesOf [(⟨s, q, r⟩ : CallRecord)] = [] :=
    updatesOf_concat_of_none (g := []) (by rw [hq]; rfl)
  rcases SettingsRun.row_cases (g := []) hrun hex with ⟨-, hw⟩ | ⟨u, hu, -⟩
  · rw [h₀, Option.map_none, Option.getD_none, createdSettings_insert] at hw
    refine ⟨hw.stamped fun u hu => ?_, ?_⟩
    · rw [hus] at hu
      cases hu
    · rw [Reflects, hw.content, hus]
      rfl
  · rw [show q.call = _ from hq] at hu
    cases hu

theorem eq_concat_of_increasing {us : Updates}
    {u : EventUpdatedDTO × TenantId}
    (hus : us.Pairwise fun u u' => u.1.occurredAt < u'.1.occurredAt) (hu : u ∈ us)
    (hle : ∀ v ∈ us, v.1.occurredAt ≤ u.1.occurredAt) : ∃ vs, us = vs ++ [u] := by
  obtain ⟨vs, vs', rfl⟩ := List.append_of_mem hu
  cases vs' with
  | nil => exact ⟨vs, rfl⟩
  | cons v vs' =>
    have hlt := (List.pairwise_cons.1 (List.pairwise_append.1 hus).2.1).1 v (by simp)
    exact absurd (hle v (by simp)) (Nat.not_le.2 hlt)

theorem not_dropped_of_none {q : Request} {r : Except Exception Unit}
    (hu : q.call.settingsUpdate = none) : ¬ Dropped g ⟨s, q, r⟩ := by
  rintro ⟨u, hu', -⟩
  rw [hu] at hu'
  cases hu'

theorem dropped_iff {q : Request} {r : Except Exception Unit} {u : EventUpdatedDTO × TenantId}
    (hu : q.call.settingsUpdate = some u) : Dropped g ⟨s, q, r⟩ ↔ u ∉ updatesOf g ∧
      isStale u.1.occurredAt ((s.db.settings u.1.eventId).bind (·.updatedAt)) = true := by
  constructor
  · rintro ⟨u', hu', h⟩
    rw [hu] at hu'
    cases hu'
    exact h
  · exact fun h => ⟨u, hu, h⟩

section Step

variable {q : Request} {r : Except Exception Unit} {y : EventSettings} {n : Nat}
  {u : EventUpdatedDTO × TenantId}

theorem created_again (hu : q.call.settingsUpdate = none) (hg : g ≠ [])
    (hy : s.db.settings p.eventId = some y) (hle : ∀ u ∈ updatesOf g, u.1.occurredAt ≤ s.now)
    (hw : WrittenSettings p.eventId ((createdSettings cfg p tenantId).apply y) s t) :
    Stamped p (g ++ [⟨s, q, r⟩]) t ∧ (Reflects cfg p tenantId g s →
      (¬ Dropped g ⟨s, q, r⟩ ∧ Reflects cfg p tenantId (g ++ [⟨s, q, r⟩]) t ↔
        Timely cfg p tenantId g ⟨s, q, r⟩)) := by
  have hus := updatesOf_concat_of_none (g := g) (x := ⟨s, q, r⟩) hu
  refine ⟨hw.stamped (by rwa [hus]), fun hr => ?_⟩
  have hcontent : y.content = settingsAfter cfg p tenantId (updatesOf g) := by
    rwa [Reflects, hy, Option.map_some, Option.some_inj] at hr
  rw [Timely, hu, Reflects, hw.content, hus, EventSettingsData.apply_content, hcontent]
  simp only [hg, false_or, not_dropped_of_none hu, not_false_eq_true, true_and, Option.some_inj]
  exact createdSettings_apply_eq_iff

/-- An update that came before is older than the last write, or was that write. -/
theorem updated_again (hrun : SettingsRun p tenantId (g ++ [⟨s, q, r⟩]))
    (hu : q.call.settingsUpdate = some u) (hmem : u ∈ updatesOf g)
    (hy : s.db.settings p.eventId = some y) (hyn : y.updatedAt = some n) (hn : n ≤ s.now)
    (hnow : s.now ≤ t.now) (hle : ∀ u ∈ updatesOf g, u.1.occurredAt ≤ n)
    (hw : if u.1.occurredAt < n then t.db.settings p.eventId = some y
      else WrittenSettings p.eventId ((patchSettings u.1 u.2).apply y) s t) :
    Stamped p (g ++ [⟨s, q, r⟩]) t ∧
      (Reflects cfg p tenantId g s → Reflects cfg p tenantId (g ++ [⟨s, q, r⟩]) t) := by
  have hus := updatesOf_concat_of_mem (x := ⟨s, q, r⟩) hu hmem
  rw [Reflects, Reflects, hus, hy, Option.map_some, Option.some_inj]
  split at hw
  · refine ⟨⟨y, n, hw, hyn, hn.trans hnow, by rwa [hus]⟩, fun hr => ?_⟩
    rw [hw, Option.map_some, hr]
  · rename_i hlt
    refine ⟨hw.stamped (by rw [hus]; exact fun v hv => (hle v hv).trans hn), fun hr => ?_⟩
    obtain ⟨vs, hvs⟩ := eq_concat_of_increasing hrun.append.increasing hmem fun v hv =>
      (hle v hv).trans (Nat.not_lt.1 hlt)
    rw [hw.content, EventSettingsData.apply_content, hr, hvs, settingsAfter_concat,
      patchSettings_patchSettings]

/-- A new update is stored unless the last write is later than what it reports. -/
theorem updated_first (hu : q.call.settingsUpdate = some u) (hmem : u ∉ updatesOf g)
    (hy : s.db.settings p.eventId = some y) (hyn : y.updatedAt = some n) (hn : n ≤ s.now)
    (hnow : s.now ≤ t.now) (hclock : u.1.occurredAt ≤ s.now)
    (hle : ∀ u ∈ updatesOf g, u.1.occurredAt ≤ n)
    (hw : if u.1.occurredAt < n then t.db.settings p.eventId = some y
      else WrittenSettings p.eventId ((patchSettings u.1 u.2).apply y) s t) :
    Stamped p (g ++ [⟨s, q, r⟩]) t ∧ (Reflects cfg p tenantId g s → ¬ u.1.occurredAt < n →
      Reflects cfg p tenantId (g ++ [⟨s, q, r⟩]) t) := by
  have hus := updatesOf_concat_of_notMem (x := ⟨s, q, r⟩) hu hmem
  rw [Reflects, Reflects, hus, hy, Option.map_some, Option.some_inj]
  split at hw
  · rename_i hlt
    refine ⟨⟨y, n, hw, hyn, hn.trans hnow, ?_⟩, fun _ hnot => absurd hlt hnot⟩
    rw [hus, List.forall_mem_append]
    exact ⟨hle, List.forall_mem_singleton.2 (Nat.le_of_lt hlt)⟩
  · refine ⟨hw.stamped ?_, fun hr _ => ?_⟩
    · rw [hus, List.forall_mem_append]
      exact ⟨fun v hv => (hle v hv).trans hn, List.forall_mem_singleton.2 hclock⟩
    · rw [hw.content, EventSettingsData.apply_content, hr, settingsAfter_concat]

/-- Any further message: it is in time exactly when it keeps the projection as it should be. -/
theorem SettingsRun.step (hrun : SettingsRun p tenantId (g ++ [⟨s, q, r⟩])) (hg : g ≠ [])
    (hs : Stamped p g s) (hex : Prog.Exec (ReflTransGen (service cfg).env) ((service cfg).exec q)
      ((service cfg).arrive q s) r t) :
    Stamped p (g ++ [⟨s, q, r⟩]) t ∧ (Reflects cfg p tenantId g s →
      (¬ Dropped g ⟨s, q, r⟩ ∧ Reflects cfg p tenantId (g ++ [⟨s, q, r⟩]) t ↔
        Timely cfg p tenantId g ⟨s, q, r⟩)) := by
  obtain ⟨y, n, hy, hyn, hn, hle⟩ := hs
  have hnow := exec_now_le hex
  rcases hrun.row_cases hex with ⟨hu, hw⟩ | ⟨u, hu, he, hw⟩
  · rw [hy, Option.map_some, Option.getD_some] at hw
    exact created_again hu hg hy (fun u hu => (hle u hu).trans hn) hw
  · have hclock : u.1.occurredAt ≤ s.now := hrun.clock ⟨s, q, r⟩ (by simp) u hu
    have hstale : isStale u.1.occurredAt ((s.db.settings p.eventId).bind (·.updatedAt)) =
        decide (u.1.occurredAt < n) := by
      simp [hy, hyn, isStale]
    rw [hstale, hy, Option.map_some, Option.getD_some] at hw
    simp only [decide_eq_true_eq] at hw
    rw [dropped_iff hu, he, hstale, decide_eq_true_eq, Timely, hu]
    simp only [hy, hyn, Option.bind_some, Option.some_inj, forall_eq']
    by_cases hmem : u ∈ updatesOf g
    · obtain ⟨hstamped, hkeeps⟩ := updated_again hrun hu hmem hy hyn hn hnow hle hw
      refine ⟨hstamped, fun hr => ?_⟩
      have hkept := hkeeps hr
      simp [hmem, hkept]
    · obtain ⟨hstamped, hkeeps⟩ := updated_first hu hmem hy hyn hn hnow hclock hle hw
      refine ⟨hstamped, fun hr => ?_⟩
      rw [and_iff_left_of_imp fun hnot => hkeeps hr fun hlt => hnot ⟨hmem, hlt⟩]
      simp [hmem]

end Step

/-- After every delivery the projection is as created and then changed by the updates so far. -/
def InOrder (cfg : Config) (p : EventCreatedDTO) (tenantId : TenantId) (h : List CallRecord)
    (w : World) : Prop :=
  (∀ g x, g ++ [x] <+: h → (g ≠ [] → Reflects cfg p tenantId g x.before) ∧ ¬ Dropped g x) ∧
    Reflects cfg p tenantId h w

theorem forall_prefix_concat {P : List CallRecord → CallRecord → Prop} {y : CallRecord} :
    (∀ g x, g ++ [x] <+: h ++ [y] → P g x) ↔ P h y ∧ ∀ g x, g ++ [x] <+: h → P g x := by
  constructor
  · exact fun hall => ⟨hall h y (List.prefix_refl _), fun g x hp =>
      hall g x (hp.trans (List.prefix_append _ _))⟩
  · rintro ⟨hy, hall⟩ g x hp
    rcases List.prefix_concat_iff.1 hp with heq | hp
    · obtain ⟨rfl, hx⟩ := List.append_inj' heq rfl
      cases hx
      exact hy
    · exact hall g x hp

theorem SettingsRun.inOrder_iff (hs : (service cfg).Serial s h w) (hrun : SettingsRun p tenantId h)
    (h₀ : s.db.settings p.eventId = none) (hne : h ≠ []) : Stamped p h w ∧
      (InOrder cfg p tenantId h w ↔ ∀ g x, g ++ [x] <+: h → Timely cfg p tenantId g x) := by
  induction hs with
  | start => exact absurd rfl hne
  | env _ he ih =>
    obtain ⟨⟨y, n, hy, hyn, hn, hle⟩, hiff⟩ := ih hrun hne
    have hdb := environment_db he
    refine ⟨⟨y, n, by rw [hdb, hy], hyn, hn.trans (Kept.of_environment he).now, hle⟩, ?_⟩
    rw [← hiff, InOrder, InOrder, Reflects, Reflects, hdb]
  | @call g v t q r hg _ hex ih =>
    rw [InOrder, forall_prefix_concat, forall_prefix_concat]
    by_cases hnil : g = []
    · subst hnil
      have h₀ : v.db.settings p.eventId = none := by rw [environments_db hg.nil, h₀]
      obtain ⟨hst, href⟩ := hrun.step_first h₀ hex
      have hq : q.call = .eventCreated p (some tenantId) := hrun.first ⟨v, q, r⟩ rfl
      have hu : q.call.settingsUpdate = none := by rw [hq]; rfl
      refine ⟨hst, fun _ => ⟨by simp [Timely, hu], by simp⟩, fun _ =>
        ⟨⟨⟨by simp, ?_⟩, by simp⟩, href⟩⟩
      exact not_dropped_of_none hu
    · obtain ⟨hst, hiff⟩ := ih hrun.append hnil
      obtain ⟨hst', hstep⟩ := hrun.step hnil hst hex
      refine ⟨hst', fun ⟨⟨hlast, hall⟩, href⟩ => ?_, fun ⟨hlast, hall⟩ => ?_⟩
      · have hr := hlast.1 hnil
        exact ⟨(hstep hr).1 ⟨hlast.2, href⟩, hiff.1 ⟨hall, hr⟩⟩
      · obtain ⟨hbefore, hr⟩ := hiff.2 hall
        obtain ⟨hnd, href⟩ := (hstep hr).2 hlast
        exact ⟨⟨⟨fun _ => hr, hnd⟩, hbefore⟩, href⟩

/-- A message about the settings of an event, with numbers that their columns can hold. -/
def Call.IsSettingsMessage (cfg : Config) : Call → Prop
  | .eventCreated p (some tenantId) => (createdSettings cfg p tenantId).fits = true
  | .eventUpdated u (some tenantId) => (updatedSettings cfg u tenantId).fits = true
  | _ => False

theorem dependable_settings {q : Request} (hq : q.call.IsSettingsMessage cfg) :
    Dependable cfg q := by
  obtain ⟨c, ctx⟩ := q
  cases c with
  | eventCreated p tenantHeader =>
    cases tenantHeader with
    | none => exact hq.elim
    | some tenantId => exact Succeeds.dependable (handleEventCreated_succeeds hq)
  | eventUpdated u tenantHeader =>
    cases tenantHeader with
    | none => exact hq.elim
    | some tenantId => exact Succeeds.dependable (handleEventUpdated_succeeds hq)
  | _ => exact hq.elim

/-- While no dependency fails, every message is handled. -/
theorem SettingsRun.of_reliable (hs : (reliable cfg).Serial s h w)
    (hmessage : ∀ x ∈ h, x.call.call = .eventCreated p (some tenantId) ∨
      ∃ u tu, x.call.call = .eventUpdated u (some tu) ∧ u.eventId = p.eventId)
    (hfits : ∀ x ∈ h, x.call.call.IsSettingsMessage cfg)
    (hfirst : ∀ x, h.head? = some x → x.call.call = .eventCreated p (some tenantId))
    (hincreasing : (updatesOf h).Pairwise fun u u' => u.1.occurredAt < u'.1.occurredAt)
    (hclock : ∀ x ∈ h, ∀ u, x.call.call.settingsUpdate = some u →
      u.1.occurredAt ≤ x.before.now) : SettingsRun p tenantId h :=
  ⟨hmessage, hfirst, hincreasing,
    fun x hx => outcome_of_dependable hs hx (dependable_settings (hfits x hx)), hclock⟩

/-- The settings of a new event follow its messages, none dropped and none taken back, exactly
when every message comes in time; and a message is handled unless a dependency fails. -/
theorem settings_projection_in_order (hs : (service cfg).Serial s h w)
    (hrun : SettingsRun p tenantId h) (h₀ : s.db.settings p.eventId = none) (hne : h ≠ []) :
    (InOrder cfg p tenantId h w ↔ ∀ g x, g ++ [x] <+: h → Timely cfg p tenantId g x) ∧
      ∀ q : Request, q.call.IsSettingsMessage cfg → Dependable cfg q :=
  ⟨(hrun.inOrder_iff hs h₀ hne).2, fun _ => dependable_settings⟩

def closedEvent : EventCreatedDTO := { eventId := 7, allowPublicRsvp := some false }

def openedEvent : EventUpdatedDTO :=
  { eventId := 7, allowPublicRsvp := some (some true), occurredAt := 5 }

def createdThenUpdated : List Request :=
  [⟨.eventCreated closedEvent (some 1), {}⟩, ⟨.eventUpdated openedEvent (some 1), {}⟩]

def settingsTrace (qs : List Request) (n : Nat) : List CallRecord × World :=
  trace plainConfig qs { World.empty with now := n }

theorem serial_settingsTrace {qs : List Request} {n : Nat}
    (h : qs.all (fun q => !q.call.isJob) = true) :
    (service plainConfig).Serial .empty (settingsTrace qs n).1 (settingsTrace qs n).2 :=
  (System.Serial.start.env (World.Environment.pass (Nat.zero_le n))).trans (serial_trace qs _ h)

theorem settingsRun_trace {qs : List Request} {n : Nat}
    (hqs : ∀ q ∈ qs, q.call = .eventCreated closedEvent (some 1) ∨
      q.call = .eventUpdated openedEvent (some 1))
    (hjob : qs.all (fun q => !q.call.isJob) = true)
    (hfirst : (settingsTrace qs n).1.head?.all
      (fun x => x.call.call = .eventCreated closedEvent (some 1)) = true)
    (hinc : (updatesOf (settingsTrace qs n).1).Pairwise
      fun u u' => u.1.occurredAt < u'.1.occurredAt)
    (hclock : (settingsTrace qs n).1.all (fun x => 5 ≤ x.before.now) = true) :
    SettingsRun closedEvent 1 (settingsTrace qs n).1 := by
  have hcall : ∀ x ∈ (settingsTrace qs n).1, x.call.call = .eventCreated closedEvent (some 1) ∨
      x.call.call = .eventUpdated openedEvent (some 1) := fun x hx => hqs _ (call_of_mem_trace hx)
  refine .of_reliable (reliable_trace qs _ hjob)
    (fun x hx => (hcall x hx).imp id fun hc => ⟨_, _, hc, rfl⟩) (fun x hx => ?_) (fun x hx => ?_)
    hinc fun x hx u hu => ?_
  · rcases hcall x hx with hc | hc <;> rw [hc] <;> rfl
  · rw [hx] at hfirst
    simpa using hfirst
  · rcases hcall x hx with hc | hc <;> rw [hc] at hu <;> cases hu
    exact of_decide_eq_true (List.all_eq_true.1 hclock x hx)

theorem settingsRun_late : SettingsRun closedEvent 1 (settingsTrace createdThenUpdated 10).1 :=
  settingsRun_trace (by simp [createdThenUpdated]) (by decide) (by decide) (by decide) (by decide)

theorem settings_projection_in_order_late :
    (InOrder plainConfig closedEvent 1 (settingsTrace createdThenUpdated 10).1
      (settingsTrace createdThenUpdated 10).2 ↔
    ∀ g x, g ++ [x] <+: (settingsTrace createdThenUpdated 10).1 →
      Timely plainConfig closedEvent 1 g x) ∧
    ∀ q : Request, q.call.IsSettingsMessage plainConfig → Dependable plainConfig q :=
  settings_projection_in_order (serial_settingsTrace (by decide)) settingsRun_late rfl (by decide)

theorem not_inOrder_settingsTrace :
    ∀ x ∈ [settingsTrace createdThenUpdated 10,
      settingsTrace (createdThenUpdated ++ createdThenUpdated.take 1) 5],
      (service plainConfig).Serial .empty x.1 x.2 ∧ SettingsRun closedEvent 1 x.1 ∧
        (x.2.db.settings 7).map (·.allowPublicRsvp) = some false ∧
        (settingsAfter plainConfig closedEvent 1 (updatesOf x.1)).allowPublicRsvp = true ∧
        ¬ InOrder plainConfig closedEvent 1 x.1 x.2 := by
  have hclosed : ∀ x : List CallRecord × World,
      (x.2.db.settings 7).map (·.allowPublicRsvp) = some false →
      (settingsAfter plainConfig closedEvent 1 (updatesOf x.1)).allowPublicRsvp = true →
      ¬ InOrder plainConfig closedEvent 1 x.1 x.2 := fun x hx hs hin => by
    obtain ⟨y, hy, he⟩ := Option.map_eq_some_iff.1 hin.2
    rw [show x.2.db.settings 7 = some y from hy] at hx
    have : y.allowPublicRsvp = true := (congrArg EventSettings.allowPublicRsvp he).trans hs
    simp [this] at hx
  intro x hx
  simp only [List.mem_cons, List.not_mem_nil, or_false] at hx
  rcases hx with rfl | rfl
  · exact ⟨serial_settingsTrace (by decide), settingsRun_late, by decide, by decide,
      hclosed _ (by decide) (by decide)⟩
  · exact ⟨serial_settingsTrace (by decide), settingsRun_trace (by simp [createdThenUpdated])
      (by decide) (by decide) (by decide) (by decide), by decide, by decide,
      hclosed _ (by decide) (by decide)⟩

theorem settings_projection_not_in_order : ¬ ∀ h w, (service plainConfig).Serial .empty h w →
    SettingsRun closedEvent 1 h → h ≠ [] → InOrder plainConfig closedEvent 1 h w := fun hall => by
  obtain ⟨hserial, hrun, -, -, hnot⟩ := not_inOrder_settingsTrace _ (List.mem_cons_self ..)
  exact hnot (hall _ _ hserial hrun (by decide))

end InvitationService

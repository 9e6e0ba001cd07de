import InvitationService.Model.AnalyticsOutboxPublisher

namespace InvitationService.AnalyticsOutboxPublisher

open Machine (Step)

/-- The row that an instance publishes, when its claim locked it, and what it waits for. -/
def Phase.lease : Phase → Option (OutboxId × Nat × Stage)
  | .publishing id _ t stage => some (id, t, stage)
  | _ => none

def Stage.record : Stage → Option AnalyticsOutbox
  | .reading => none
  | .sending record | .delivered record _ | .undelivered record _ _ => some record

@[simp] theorem next_lease (now : Nat) (ids : List OutboxId) : (next now ids).lease = none := by
  cases ids <;> rfl

inductive Advance (i : InstanceId) (rows : List AnalyticsOutbox) (now : Nat) :
    Phase → Act → Phase → List AnalyticsOutbox → List Event → Prop
  | poll (ph : Phase) : Advance i rows now ph .poll ph rows []
  | go {ph ph' : Phase} {a : Act} : ph.lease = none → ph'.lease = none →
      (∀ id rest n, ph' = .claiming id rest n → n = now) → Advance i rows now ph a ph' rows []
  | missing {id rest t} : rows[id]? = none →
      Advance i rows now (.publishing id rest t .reading) .read .idle rows []
  | abandon {ph ph' : Phase} {a : Act} : (a = .stop ∨ ∃ e, a = .fault e) →
      (ph' = .idle ∨ ph' = .stopped) → Advance i rows now ph a ph' rows []
  | claim {id rest n row} : rows[id]? = some row → claimable n row = true →
      Advance i rows now (.claiming id rest n) .claim (.publishing id rest n .reading)
        (rows.modify id (claimData i n)) [.claimed i id]
  | read {id rest t record} : rows[id]? = some record →
      Advance i rows now (.publishing id rest t .reading) .read
        (.publishing id rest t (.sending record)) rows [.sent id (message id record)]
  | delivered {id rest t record u} :
      Advance i rows now (.publishing id rest t (.sending record)) (.settle (.ok u))
        (.publishing id rest t (.delivered record now)) rows []
  | undelivered {id rest t record e} :
      Advance i rows now (.publishing id rest t (.sending record)) (.settle (.error e))
        (.publishing id rest t (.undelivered record e now)) rows [.failed id]
  | fault {id rest t record n e} :
      Advance i rows now (.publishing id rest t (.delivered record n)) (.fault e)
        (.publishing id rest t (.undelivered record e now)) rows []
  | published {id rest t record n} :
      Advance i rows now (.publishing id rest t (.delivered record n)) .update (next now rest)
        (rows.modify id (publishedData n)) []
  | failed {id rest t record e n} :
      Advance i rows now (.publishing id rest t (.undelivered record e n)) .update (next now rest)
        (rows.modify id (failedData record e n)) []

section Advance

variable {i : InstanceId} {rows rows' : List AnalyticsOutbox} {now : Nat} {ph ph' : Phase} {a : Act}
  {evs : List Event}

theorem next_claiming {ids rest : List OutboxId} {id : OutboxId} {n : Nat}
    (h : next now ids = .claiming id rest n) : n = now := by
  cases ids with
  | nil => simp [next] at h
  | cons id' ids =>
    simp only [next, Phase.claiming.injEq] at h
    exact h.2.2.symm

theorem Advance.next {ids : List OutboxId} (h : ph.lease = none) :
    Advance i rows now ph a (AnalyticsOutboxPublisher.next now ids) rows [] :=
  .go h (next_lease _ _) fun _ _ _ => next_claiming

theorem advance_cases (h : advance i rows now ph a = some (ph', rows', evs)) :
    Advance i rows now ph a ph' rows' evs := by
  unfold advance at h
  split at h
  · simp at h
  · cases h
    exact .go rfl rfl (by simp)
  · cases h
    exact .poll _
  · split at h
    · cases h
      exact .next rfl
    · simp at h
  · split at h
    · next hc =>
      cases h
      obtain ⟨row, hrow, hc⟩ := (Option.any_eq_true _ _).1 hc
      exact .claim hrow hc
    · cases h
      exact .next rfl
  · split at h
    · next hrow =>
      cases h
      exact .read hrow
    · next hrow =>
      cases h
      exact .missing hrow
  · split at h
    · cases h
      exact .delivered
    · cases h
      exact .undelivered
  · cases h
    exact .published
  · cases h
    exact .failed
  · cases h
    exact .fault
  · simp at h
  · simp at h
  · cases h
    exact .abandon (.inr ⟨_, rfl⟩) (.inl rfl)
  · cases h
    exact .abandon (.inl rfl) (.inr rfl)
  · simp at h

end Advance
namespace State

def holder (s : State) (id : OutboxId) : Option InstanceId :=
  s.log.findSome? fun
    | .claimed i id' => if id' = id then some i else none
    | _ => none

/-- The instance is between its claim of `id` and the final update. -/
def Publishing (s : State) (i : InstanceId) (id : OutboxId) : Prop :=
  ∃ t stage, (s.phase i).lease = some (id, t, stage)

/-- Another instance has claimed `id` since `i` did, which still publishes it. -/
def TakenOver (s : State) (i : InstanceId) (id : OutboxId) : Prop :=
  s.Publishing i id ∧ ∃ j, s.holder id = some j ∧ j ≠ i

end State

def delivery (row : AnalyticsOutbox) :
    Nat × Option Nat × Option InstanceId × Nat × Option Nat × Option Nat :=
  (row.attempts, row.lockedAt, row.lockedBy, row.nextAttemptAt, row.publishedAt, row.deadLetteredAt)

/-- No row is both published and dead-lettered, and an instance whose row has been taken over
leaves it alone. -/
def Fenced (h : List (Step State Move)) : Prop :=
  ∀ x ∈ h, (∀ row ∈ x.after.rows, ¬ (row.publishedAt.isSome ∧ row.deadLetteredAt.isSome)) ∧
    ∀ i a id, x.move = .act i a → x.before.TakenOver i id →
      (x.after.rows[id]?).map delivery = (x.before.rows[id]?).map delivery

def Move.updater : Move → Option InstanceId
  | .act i .update => some i
  | _ => none

/-- A final update finds its row locked by the instance that makes it. -/
def Locked (x : Step State Move) : Prop :=
  ∀ i ∈ x.move.updater, ∀ l ∈ (x.before.phase i).lease, ∀ row ∈ x.before.rows[l.1]?,
    row.lockedBy = some i

instance (x : Step State Move) : Decidable (Locked x) :=
  inferInstanceAs (Decidable (∀ i ∈ x.move.updater, _))

structure Sane (row : AnalyticsOutbox) : Prop where
  attempts_le : row.attempts ≤ 10
  deadLettered : row.deadLetteredAt.isSome ↔ row.attempts = 10
  once : ¬ (row.publishedAt.isSome ∧ row.deadLetteredAt.isSome)

structure Current (t : Nat) (stage : Stage) (row : AnalyticsOutbox) : Prop where
  lockedAt : row.lockedAt = some t
  unfinished : finished row = false
  attempts : ∀ record, stage.record = some record → record.attempts = row.attempts

structure Leases (s : State) : Prop where
  current : ∀ i (id : OutboxId) t stage row, (s.phase i).lease = some (id, t, stage) →
    s.rows[id]? = some row → row.lockedBy = some i → Current t stage row
  holder : ∀ i (id : OutboxId) row, s.rows[id]? = some row → row.lockedBy = some i →
    s.holder id = some i
  sane : ∀ (id : OutboxId) row, s.rows[id]? = some row → Sane row

section Rows

variable {row record : AnalyticsOutbox} {i : InstanceId} {now : Nat} {error : String}

theorem Sane.claimData (h : Sane row) : Sane (claimData i now row) := ⟨h.1, h.2, h.3⟩

theorem Sane.publishedData (h : Sane row) (hrow : finished row = false) :
    Sane (publishedData now row) where
  attempts_le := h.attempts_le
  deadLettered := h.deadLettered
  once := by
    simp only [finished, Bool.or_eq_false_iff] at hrow
    simp [AnalyticsOutboxPublisher.publishedData, hrow.2]

theorem Sane.failedData (h : Sane row) (hrow : finished row = false)
    (hrecord : record.attempts = row.attempts) : Sane (failedData record error now row) := by
  simp only [finished, Bool.or_eq_false_iff] at hrow
  obtain ⟨hpub, hdead⟩ := hrow
  have hne : row.attempts ≠ 10 := fun h10 => by simp [h.deadLettered.2 h10] at hdead
  have hle := h.attempts_le
  rw [AnalyticsOutboxPublisher.failedData, hrecord]
  dsimp only
  split
  · exact ⟨by dsimp only; omega, by simp; omega, by simp [hpub]⟩
  · exact ⟨by dsimp only; omega, by simp [hdead]; omega, by simp [hpub]⟩

@[simp] theorem failedData_lockedBy : (failedData record error now row).lockedBy = none := by
  unfold failedData
  dsimp only
  split <;> rfl

@[simp] theorem failedData_attempts :
    (failedData record error now row).attempts = record.attempts + 1 := by
  unfold failedData
  dsimp only
  split <;> rfl

end Rows

theorem modify_cases {rows : List AnalyticsOutbox} {id id' : OutboxId} {row : AnalyticsOutbox}
    {f : AnalyticsOutbox → AnalyticsOutbox} (h : (rows.modify id f)[id']? = some row) :
    (id' = id ∧ ∃ row₀, rows[id]? = some row₀ ∧ f row₀ = row) ∨
      (id' ≠ id ∧ rows[id']? = some row) := by
  rw [List.getElem?_modify] at h
  by_cases hid : id' = id
  · subst hid
    exact .inl ⟨rfl, by simpa using h⟩
  · exact .inr ⟨hid, by simpa [Ne.symm hid] using h⟩

section Leases

variable {s t : State} {i : InstanceId} {a : Act} {ph' : Phase} {evs : List Event}

def State.after (s : State) (i : InstanceId) (ph : Phase) (rows : List AnalyticsOutbox)
    (evs : List Event) : State :=
  { s with rows, phase := Function.update s.phase i ph, log := evs ++ s.log }

theorem step_act (h : step s (.act i a) = some t) : ∃ ph' rows' evs,
    Advance i s.rows s.now (s.phase i) a ph' rows' evs ∧ t = s.after i ph' rows' evs := by
  obtain ⟨⟨ph', rows', evs⟩, ha, rfl⟩ := Option.map_eq_some_iff.1 h
  exact ⟨ph', rows', evs, advance_cases ha, rfl⟩

theorem Leases.stay (hs : Leases s) (hevs : ∀ e ∈ evs, ∀ j id, e ≠ .claimed j id)
    (hph : ∀ id t stage row, ph'.lease = some (id, t, stage) → s.rows[id]? = some row →
      row.lockedBy = some i → Current t stage row) : Leases (s.after i ph' s.rows evs) where
  current j id t stage row hlease hrow hby := by
    by_cases hj : j = i
    · subst hj
      exact hph id t stage row (by simpa [State.after] using hlease) hrow hby
    · exact hs.current j id t stage row (by simpa [State.after, hj] using hlease) hrow hby
  holder j id row hrow hby := by
    have hnone : evs.findSome? (fun
        | .claimed i id' => if id' = id then some i else none
        | _ => none) = (none : Option InstanceId) :=
      List.findSome?_eq_none_iff.2 fun e he => by
        cases e with
        | claimed k id' => exact absurd rfl (hevs _ he k id')
        | sent => rfl
        | failed => rfl
    simpa [State.after, State.holder, List.findSome?_append, hnone] using hs.holder j
      id row hrow hby
  sane := hs.sane

theorem Leases.claim {id : OutboxId} {rest : List OutboxId} {n : Nat} (hs : Leases s)
    (hclaim : ∀ row, s.rows[id]? = some row → claimable n row = true) :
    Leases (s.after i (.publishing id rest n .reading) (s.rows.modify id (claimData i n))
      [.claimed i id]) where
  current j id' t stage row hlease hrow hby := by
    rcases modify_cases hrow with ⟨rfl, row₀, hrow₀, rfl⟩ | ⟨hid, hrow⟩
    · obtain rfl : i = j := Option.some.inj hby
      obtain ⟨rfl, rfl⟩ : n = t ∧ Stage.reading = stage := by
        simpa [State.after, Phase.lease] using hlease
      have hfree := hclaim row₀ hrow₀
      simp only [claimable, Bool.and_eq_true, Bool.not_eq_true'] at hfree
      exact ⟨rfl, hfree.1, by simp [Stage.record]⟩
    · have hj : j ≠ i := by
        rintro rfl
        simp [State.after, Phase.lease, Ne.symm hid] at hlease
      exact hs.current j id' t stage row (by simpa [State.after, hj] using hlease) hrow hby
  holder j id' row hrow hby := by
    rcases modify_cases hrow with ⟨rfl, row₀, hrow₀, rfl⟩ | ⟨hid, hrow⟩
    · simpa [State.after, State.holder, claimData] using hby
    · simpa [State.after, State.holder, Ne.symm hid] using hs.holder j id' row hrow hby
  sane id' row hrow := by
    rcases modify_cases hrow with ⟨rfl, row₀, hrow₀, rfl⟩ | ⟨hid, hrow⟩
    · exact (hs.sane id' row₀ hrow₀).claimData
    · exact hs.sane id' row hrow

theorem Leases.update {id : OutboxId} {f : AnalyticsOutbox → AnalyticsOutbox} (hs : Leases s)
    (hph : ph'.lease = none) (hby : ∀ row, (f row).lockedBy = none)
    (hsane : ∀ row, s.rows[id]? = some row → Sane (f row)) :
    Leases (s.after i ph' (s.rows.modify id f) []) where
  current j id' t stage row hlease hrow hj := by
    rcases modify_cases hrow with ⟨rfl, row₀, hrow₀, rfl⟩ | ⟨hid, hrow⟩
    · simp [hby] at hj
    · have hne : j ≠ i := by
        rintro rfl
        simp [State.after, hph] at hlease
      exact hs.current j id' t stage row (by simpa [State.after, hne] using hlease) hrow hj
  holder j id' row hrow hj := by
    rcases modify_cases hrow with ⟨rfl, row₀, hrow₀, rfl⟩ | ⟨hid, hrow⟩
    · simp [hby] at hj
    · simpa [State.after, State.holder] using hs.holder j id' row hrow hj
  sane id' row hrow := by
    rcases modify_cases hrow with ⟨rfl, row₀, hrow₀, rfl⟩ | ⟨hid, hrow⟩
    · exact hsane row₀ hrow₀
    · exact hs.sane id' row hrow

theorem Leases.within {id : OutboxId} {rest : List OutboxId} {n : Nat} {stage stage' : Stage}
    (hs : Leases s) (hph : s.phase i = .publishing id rest n stage)
    (hevs : ∀ e ∈ evs, ∀ j id, e ≠ .claimed j id)
    (hrecord : ∀ record, stage'.record = some record → stage.record = some record ∨
      s.rows[id]? = some record) :
    Leases (s.after i (.publishing id rest n stage') s.rows evs) := by
  refine hs.stay hevs fun id' t stage₁ row hlease hrow hby => ?_
  obtain ⟨rfl, rfl, rfl⟩ : id = id' ∧ n = t ∧ stage' = stage₁ := by simpa [Phase.lease] using hlease
  have hcur := hs.current i id n stage row (by rw [hph]; rfl) hrow hby
  refine ⟨hcur.lockedAt, hcur.unfinished, fun record hr => ?_⟩
  rcases hrecord record hr with hr | hr
  · exact hcur.attempts record hr
  · rw [hrow] at hr
    cases hr
    rfl

theorem append_cases {rows : List AnalyticsOutbox} {id : OutboxId} {row row' : AnalyticsOutbox}
    (h : (rows ++ [row'])[id]? = some row) : rows[id]? = some row ∨ id = rows.length ∧
      row = row' := by
  rcases Nat.lt_trichotomy id rows.length with hlt | rfl | hlt
  · exact .inl (by rwa [List.getElem?_append_left hlt] at h)
  · exact .inr ⟨rfl, by simpa using h.symm⟩
  · rw [List.getElem?_eq_none (by simp; omega)] at h
    simp at h

theorem Leases.enqueue {row' : AnalyticsOutbox} (hs : Leases s) (hby : row'.lockedBy = none)
    (hrow' : Sane row') : Leases { s with rows := s.rows ++ [row'] } where
  current i id t stage row hlease hrow hi := by
    rcases append_cases hrow with hrow | ⟨-, rfl⟩
    · exact hs.current i id t stage row hlease hrow hi
    · simp [hby] at hi
  holder i id row hrow hi := by
    rcases append_cases hrow with hrow | ⟨-, rfl⟩
    · exact hs.holder i id row hrow hi
    · simp [hby] at hi
  sane id row hrow := by
    rcases append_cases hrow with hrow | ⟨-, rfl⟩
    · exact hs.sane id row hrow
    · exact hrow'

theorem Leases.step {x : Step State Move} (hs : Leases x.before) (hx : Locked x)
    (hm : step x.before x.move = some x.after) : Leases x.after := by
  obtain ⟨s, m, t⟩ := x
  dsimp only at hs hm ⊢
  cases m with
  | clock now =>
    obtain ⟨-, rfl⟩ : s.now ≤ now ∧ { s with now } = t := by
      simpa [AnalyticsOutboxPublisher.step] using hm
    exact ⟨hs.current, hs.holder, hs.sane⟩
  | enqueue fact correlationId =>
    cases hm
    exact hs.enqueue rfl ⟨by simp, by simp, by simp⟩
  | act i a =>
    obtain ⟨ph', rows', evs, ha, rfl⟩ := step_act hm
    generalize hph : s.phase i = ph at ha
    have hlease : ∀ {id t stage}, ph.lease = some (id, t, stage) →
        (s.phase i).lease = some (id, t, stage) := fun hl => by rw [hph, hl]
    -- the row of a final update is locked by `i`, so it is as `i` read it
    have hfinal : ∀ {id t stage row}, a = .update → ph.lease = some (id, t, stage) →
        s.rows[id]? = some row → Current t stage row := fun hup hl hrow =>
      hs.current i _ _ _ _ (hlease hl) hrow (hx i (by rw [hup]; rfl) _ (hlease hl) _ hrow)
    cases ha with
    | poll =>
      exact hs.stay (by simp) fun id t stage row hl => hs.current i id t stage row (hlease hl)
    | go _ hl => exact hs.stay (by simp) (by simp [hl])
    | missing => exact hs.stay (by simp) (by simp [Phase.lease])
    | abandon _ hl => rcases hl with rfl | rfl <;> exact hs.stay (by simp) (by simp [Phase.lease])
    | claim hrow hc =>
      refine hs.claim fun row hrow' => ?_
      rw [hrow] at hrow'
      cases hrow'
      exact hc
    | read hrow => exact hs.within hph (by simp) fun record hr => .inr (by rw [← hr]; exact hrow)
    | delivered => exact hs.within hph (by simp) fun record hr => .inl hr
    | undelivered => exact hs.within hph (by simp) fun record hr => .inl hr
    | fault => exact hs.within hph (by simp) fun record hr => .inl hr
    | published =>
      exact hs.update (next_lease _ _) (fun _ => rfl) fun row hrow =>
        (hs.sane _ row hrow).publishedData (hfinal rfl rfl hrow).unfinished
    | failed =>
      refine hs.update (next_lease _ _) (fun _ => failedData_lockedBy) fun row hrow => ?_
      have hcur := hfinal rfl rfl hrow
      exact (hs.sane _ row hrow).failedData hcur.unfinished (hcur.attempts _ rfl)

theorem Leases.start : Leases {} := ⟨by simp, by simp, by simp⟩

end Leases

section

variable {h : List (Step State Move)} {s : State}

theorem leases_of_run (hrun : publishers.Run {} h s) (hlock : ∀ x ∈ h, Locked x) : Leases s :=
  hrun.invariant hlock .start fun _ => Leases.step

/-- No row is both published and dead-lettered and no instance changes a row that has been taken
over, as long as every final update finds its row locked by the instance that makes it. -/
theorem outbox_rows_fenced (hrun : publishers.Run {} h s) (hlock : ∀ x ∈ h, Locked x) :
    Fenced h := by
  intro x hx
  obtain ⟨hm, g, hg, hr⟩ := hrun.of_mem hx
  have hs := leases_of_run hr fun y hy => hlock y (hg y hy)
  refine ⟨fun row hrow => ?_, ?_⟩
  · obtain ⟨id, hid⟩ := List.getElem?_of_mem hrow
    exact ((hs.step (hlock x hx) hm).sane id row hid).once
  · rintro i a id hmove ⟨⟨t, stage, hlease⟩, j, hholder, hne⟩
    obtain ⟨s, m, t⟩ := x
    dsimp only at hmove hm hlease hholder hs ⊢
    subst hmove
    -- a final update would find the row locked by `i`
    have hrow : a = .update → s.rows[id]? = none := fun hup => by
      cases hrow : s.rows[id]? with
      | none => rfl
      | some row =>
        have hby := hlock _ hx i (by rw [hup]; rfl) _ hlease row hrow
        rw [hs.holder i id row hrow hby] at hholder
        exact absurd (Option.some.inj hholder).symm hne
    obtain ⟨ph', rows', evs, ha, rfl⟩ := step_act hm
    generalize hph : s.phase i = ph at ha
    rw [hph] at hlease
    cases ha with
    | claim => cases hlease
    | published =>
      cases hlease
      simp [State.after, hrow rfl]
    | failed =>
      cases hlease
      simp [State.after, hrow rfl]
    | _ => rfl

def attempt (i : InstanceId) (outcome : Except String Unit) : List Move :=
  [.act i .poll, .act i (.select [0]), .act i .claim, .act i .read, .act i (.settle outcome),
    .act i .update]

def sampleFact : OutboxRow where
  tenantId := 0
  topic := "guest.confirmation.resent.v1"
  actorId := none
  occurredAt := 0
  payload := { eventName := "GuestConfirmationResent", aggregateId := 0, properties := {} }

def takeover : List Move :=
  .enqueue sampleFact none ::
  (List.range 9).flatMap (fun k => .clock (300000 * k) :: attempt 0 (.error "timeout")) ++
  [.clock 2700000, .act 0 .poll, .act 0 (.select [0]), .act 0 .claim, .act 0 .read,
    .clock 2760001] ++ attempt 1 (.error "timeout") ++ [.act 0 (.settle (.ok ())), .act 0 .update]

theorem outbox_rows_not_fenced : ¬ ∀ h s, publishers.Run {} h s → Fenced h := by
  intro hall
  have hrun : (publishers.trace {} takeover).any (fun x => x.1 ≠ [] ∧ x.2.rows.any fun row =>
      row.publishedAt.isSome && row.deadLetteredAt.isSome) := by decide +kernel
  obtain ⟨⟨h, s⟩, hx, hbad⟩ := (Option.any_eq_true _ _).1 hrun
  obtain ⟨hne, hbad⟩ := of_decide_eq_true hbad
  obtain ⟨row, hrow, hboth⟩ := List.any_eq_true.1 hbad
  have hr := Machine.run_trace hx
  obtain ⟨x, hmem, rfl⟩ := hr.mem_after hne
  exact ((hall h _ hr) x hmem).1 row hrow (by simpa using hboth)

theorem outbox_rows_fenced_delivered : ∃ h s, publishers.Run {} h s ∧ Fenced h ∧
    ∃ row ∈ s.rows, row.attempts = 1 ∧ row.publishedAt.isSome := by
  have hrun : (publishers.trace {} (.enqueue sampleFact none :: (attempt 0 (.error "timeout") ++
      .clock 300000 :: attempt 1 (.ok ())))).any (fun x => decide (∀ y ∈ x.1, Locked y) &&
        x.2.rows.any fun row => row.attempts = 1 ∧ row.publishedAt.isSome) := by decide +kernel
  obtain ⟨⟨h, s⟩, hx, hok⟩ := (Option.any_eq_true _ _).1 hrun
  obtain ⟨hlock, hok⟩ := Bool.and_eq_true_iff.1 hok
  obtain ⟨row, hrow, hrow'⟩ := List.any_eq_true.1 hok
  have hr := Machine.run_trace hx
  exact ⟨h, s, hr, outbox_rows_fenced hr (of_decide_eq_true hlock), row, hrow,
    of_decide_eq_true hrow'⟩

end

end InvitationService.AnalyticsOutboxPublisher

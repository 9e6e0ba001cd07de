import InvitationService.Publisher.Lease

namespace InvitationService.AnalyticsOutboxPublisher

open Machine (Step)

def failures (id : OutboxId) (log : List Event) : Nat :=
  log.countP fun | .failed id' => id' = id | _ => false

def sends (id : OutboxId) (log : List Event) : Nat :=
  log.countP fun | .sent id' _ => id' = id | _ => false

/-- No statement fails, no publish is given up, and none is still under way when the sixty seconds
of its lease are over. -/
structure Prompt (x : Step State Move) : Prop where
  answered : ∀ i e, x.move ≠ .act i (.fault e)
  ends : ∀ i, x.move = .act i .stop → (x.before.phase i).lease = none
  inTime : ∀ i id t stage, (x.before.phase i).lease = some (id, t, stage) →
    x.before.now ≤ t + 60000

/-- The instance has seen a send of `id` fail and not yet recorded it. -/
def State.Recording (s : State) (i : InstanceId) (id : OutboxId) : Prop :=
  ∃ t record e n, (s.phase i).lease = some (id, t, .undelivered record e n)

/-- The row that the step tries to claim, and the date of the claim. -/
def target (x : Step State Move) : Option (OutboxId × Nat) :=
  match x.move with
  | .act i .claim => match x.before.phase i with
    | .claiming id _ n => some (id, n)
    | _ => none
  | _ => none

/-- A claim that succeeds finds no instance that still publishes its row. -/
def Alone (x : Step State Move) : Prop :=
  ∀ c ∈ target x, ∀ row ∈ x.before.rows[c.1]?, claimable c.2 row = true →
    ∀ j, ¬ x.before.Publishing j c.1

/-- An instance that has seen a send fail is not given up before it has recorded that. -/
def Records (x : Step State Move) : Prop :=
  ∀ i id, x.before.Recording i id →
    x.move ≠ .act i .stop ∧ ∀ e, x.move ≠ .act i (.fault e)

/-- The step ends a send of `id` in failure, that of the update after it included. -/
def failing (id : OutboxId) (x : Step State Move) : Bool :=
  match x.move with
  | .act i a => match x.before.phase i, a with
    | .publishing id' _ _ (.sending _), .settle (.error _) => id' = id
    | .publishing id' _ _ (.delivered _ _), .fault _ => id' = id
    | _, _ => false
  | _ => false

/-- What is wanted of the rows and their publishers. -/
structure Accounted (s : State) : Prop where
  exclusive : ∀ i j id, s.Publishing i id → s.Publishing j id → i = j
  settled : ∀ (id : OutboxId) row, s.rows[id]? = some row → (∀ i, ¬ s.Recording i id) →
    row.attempts = failures id s.log
  recording : ∀ (id : OutboxId) row, s.rows[id]? = some row → ∀ i, s.Recording i id →
    row.attempts + 1 = failures id s.log
  capped : ∀ row ∈ s.rows, row.attempts ≤ 10
  deadLettered : ∀ row ∈ s.rows, row.deadLetteredAt.isSome ↔ row.attempts = 10

def Timed (s : State) : Prop := ∀ i id rest n, s.phase i = .claiming id rest n → n ≤ s.now

structure Exclusive (s : State) : Prop where
  held : ∀ i (id : OutboxId) t stage, (s.phase i).lease = some (id, t, stage) →
    ∃ row, s.rows[id]? = some row ∧ row.lockedBy = some i
  past : Timed s

section Exclusive

variable {s t : State} {i j : InstanceId} {id : OutboxId} {a : Act} {ph' : Phase} {evs : List Event}
  {h : List (Step State Move)}

theorem Timed.after {rows' : List AnalyticsOutbox} (hs : Timed s)
    (hpast : ∀ id rest n, ph' = .claiming id rest n → n ≤ s.now) :
    Timed (s.after i ph' rows' evs) := by
  intro j id rest n hclaim
  by_cases hj : j = i
  · subst hj
    exact hpast id rest n (by simpa [State.after] using hclaim)
  · exact hs j id rest n (by simpa [State.after, hj] using hclaim)

theorem Timed.step {x : Step State Move} (hs : Timed x.before)
    (hm : step x.before x.move = some x.after) : Timed x.after := by
  obtain ⟨s, m, t⟩ := x
  dsimp only at hs hm ⊢
  cases m with
  | clock now =>
    obtain ⟨hnow, rfl⟩ : s.now ≤ now ∧ { s with now } = t := by
      simpa [AnalyticsOutboxPublisher.step] using hm
    exact fun i id rest n h => Nat.le_trans (hs i id rest n h) hnow
  | enqueue fact correlationId =>
    cases hm
    exact hs
  | act i a =>
    obtain ⟨ph', rows', evs, ha, rfl⟩ := step_act hm
    generalize hph : s.phase i = ph at ha
    cases ha with
    | poll => exact hs.after fun id rest n h => hs i id rest n (hph.trans h)
    | go _ _ hnow => exact hs.after fun id rest n h => Nat.le_of_eq (hnow id rest n h)
    | abandon _ hl => rcases hl with rfl | rfl <;> exact hs.after (by simp)
    | published | failed => exact hs.after fun id rest n h => Nat.le_of_eq (next_claiming h)
    | _ => exact hs.after (by simp)

theorem timed_of_run (hrun : publishers.Run {} h s) : Timed s :=
  hrun.invariant (fun _ _ => trivial) (by simp [Timed]) fun _ hs _ hm => hs.step hm

theorem Exclusive.unique (hs : Exclusive s) (hi : s.Publishing i id) (hj : s.Publishing j id) :
    i = j := by
  obtain ⟨t, stage, hi⟩ := hi
  obtain ⟨t', stage', hj⟩ := hj
  obtain ⟨row, hrow, hby⟩ := hs.held i id t stage hi
  obtain ⟨row', hrow', hby'⟩ := hs.held j id t' stage' hj
  rw [hrow] at hrow'
  cases hrow'
  exact Option.some.inj (hby.symm.trans hby')

theorem Exclusive.locked {x : Step State Move} (hs : Exclusive x.before) : Locked x := by
  intro i _ l hl row hrow
  obtain ⟨row', hrow', hby⟩ := hs.held i l.1 l.2.1 l.2.2 hl
  rw [hrow', Option.mem_some] at hrow
  rwa [← hrow]

theorem Exclusive.not_claimable (hs : Exclusive s) (hl : Leases s)
    (htime : ∀ i id t stage, (s.phase i).lease = some (id, t, stage) → s.now ≤ t + 60000)
    {row : AnalyticsOutbox} {n : Nat} (hrow : s.rows[id]? = some row) (hn : n ≤ s.now)
    (hj : s.Publishing j id) : claimable n row = false := by
  obtain ⟨t, stage, hj⟩ := hj
  obtain ⟨row', hrow', hby⟩ := hs.held j id t stage hj
  rw [hrow] at hrow'
  cases hrow'
  have hcur := hl.current j id t stage row hj hrow hby
  have hnow := htime j id t stage hj
  have hlt : ¬ t < n - 60000 := by omega
  simp [claimable, unlocked, hcur.lockedAt, hlt]

theorem Exclusive.stay (hs : Exclusive s)
    (hph : ∀ id t stage, ph'.lease = some (id, t, stage) → s.Publishing i id)
    (hpast : Timed (s.after i ph' s.rows evs)) : Exclusive (s.after i ph' s.rows evs) where
  held j id t stage hlease := by
    by_cases hj : j = i
    · subst hj
      obtain ⟨t', stage', hl⟩ := hph id t stage (by simpa [State.after] using hlease)
      exact hs.held j id t' stage' hl
    · exact hs.held j id t stage (by simpa [State.after, hj] using hlease)
  past := hpast

theorem Exclusive.modify {f : AnalyticsOutbox → AnalyticsOutbox} (hs : Exclusive s)
    (hfree : ∀ j, s.Publishing j id → j = i)
    (hph : ∀ id' t stage, ph'.lease = some (id', t, stage) → id' = id ∧
      ∃ row, s.rows[id]? = some row ∧ (f row).lockedBy = some i)
    (hpast : Timed (s.after i ph' (s.rows.modify id f) evs)) :
    Exclusive (s.after i ph' (s.rows.modify id f) evs) where
  held j id' t stage hlease := by
    by_cases hj : j = i
    · subst hj
      obtain ⟨rfl, row, hrow, hby⟩ := hph id' t stage (by simpa [State.after] using hlease)
      exact ⟨f row, by simp [State.after, hrow], hby⟩
    · have hlease : (s.phase j).lease = some (id', t, stage) := by
        simpa [State.after, hj] using hlease
      have hid : id ≠ id' := fun h => hj (hfree j ⟨t, stage, by rw [h, hlease]⟩)
      simpa [State.after, hid] using hs.held j id' t stage hlease
  past := hpast

theorem Exclusive.enqueue {row' : AnalyticsOutbox} (hs : Exclusive s) :
    Exclusive { s with rows := s.rows ++ [row'] } where
  held i id t stage hlease := by
    obtain ⟨row, hrow, hby⟩ := hs.held i id t stage hlease
    exact ⟨row, by rw [List.getElem?_append_left (List.getElem?_eq_some_iff.1 hrow).1, hrow], hby⟩
  past := hs.past

theorem target_cases {x : Step State Move} {id : OutboxId} {n : Nat} (hx : (id, n) ∈ target x) :
    ∃ i rest, x.move = .act i .claim ∧ x.before.phase i = .claiming id rest n := by
  unfold target at hx
  split at hx
  · split at hx
    · cases hx
      exact ⟨_, _, ‹_›, ‹_›⟩
    · cases hx
  · cases hx

theorem Prompt.alone {x : Step State Move} (hx : Prompt x) (hs : Exclusive x.before)
    (hl : Leases x.before) : Alone x := by
  rintro ⟨id, n⟩ hc row hrow hclaim j hj
  obtain ⟨i, rest, -, hph⟩ := target_cases hc
  have := hs.not_claimable hl hx.inTime hrow (hs.past i id rest n hph) hj
  simp [hclaim] at this

theorem Prompt.records {x : Step State Move} (hx : Prompt x) : Records x := fun i _ hi => by
  obtain ⟨t, record, e, n, hl⟩ := hi
  refine ⟨fun hstop => ?_, hx.answered i⟩
  rw [hx.ends i hstop] at hl
  cases hl

theorem Exclusive.step {x : Step State Move} (hs : Exclusive x.before) (hx : Alone x)
    (hm : step x.before x.move = some x.after) : Exclusive x.after := by
  have hpast := hs.past.step hm
  obtain ⟨s, m, t⟩ := x
  dsimp only at hs hm hpast ⊢
  cases m with
  | clock now =>
    obtain ⟨-, rfl⟩ : s.now ≤ now ∧ { s with now } = t := by
      simpa [AnalyticsOutboxPublisher.step] using hm
    exact ⟨hs.held, hpast⟩
  | enqueue fact correlationId =>
    cases hm
    exact hs.enqueue
  | act i a =>
    obtain ⟨ph', rows', evs, ha, rfl⟩ := step_act hm
    generalize hph : s.phase i = ph at ha
    have hpub : ∀ {id t stage}, ph.lease = some (id, t, stage) → s.Publishing i id :=
      fun hl => ⟨_, _, by rw [hph, hl]⟩
    cases ha with
    | poll =>
      exact hs.stay (fun id t stage hl => hpub hl) hpast
    | go _ hnone hnow => exact hs.stay (by simp [hnone]) hpast
    | missing => exact hs.stay (by simp [Phase.lease]) hpast
    | abandon _ hl => rcases hl with rfl | rfl <;> exact hs.stay (by simp [Phase.lease]) hpast
    | @claim id rest n row hrow hc =>
      refine hs.modify (fun j hj => ?_) (fun id' t stage h => ?_) hpast
      · have htarget : (id, n) ∈ target ⟨s, .act i .claim,
          s.after i (.publishing id rest n .reading)
            (s.rows.modify id (claimData i n)) [.claimed i id]⟩ := by simp [target, hph]
        exact absurd hj (hx _ htarget row hrow hc j)
      · obtain ⟨rfl, -⟩ : id = id' ∧ _ := by simpa [Phase.lease] using h
        exact ⟨rfl, row, hrow, rfl⟩
    | read | delivered | undelivered | fault =>
      refine hs.stay (fun id t stage h => ?_) hpast
      simp only [Phase.lease, Option.some.injEq, Prod.mk.injEq] at h
      obtain ⟨rfl, -⟩ := h
      exact hpub rfl
    | published | failed =>
      exact hs.modify (fun j hj => hs.unique hj (hpub rfl)) (by simp) hpast

end Exclusive

structure Tallied (count : OutboxId → Nat) (s : State) : Prop where
  settled : ∀ (id : OutboxId) row, s.rows[id]? = some row → (∀ i, ¬ s.Recording i id) →
    row.attempts = count id
  recording : ∀ (id : OutboxId) row, s.rows[id]? = some row → ∀ i, s.Recording i id →
    row.attempts + 1 = count id
  fresh : ∀ id, s.rows.length ≤ id → count id = 0

structure Counts (s : State) : Prop where
  settled : ∀ (id : OutboxId) row, s.rows[id]? = some row → (∀ i, ¬ s.Recording i id) →
    row.attempts = failures id s.log
  recording : ∀ (id : OutboxId) row, s.rows[id]? = some row → ∀ i, s.Recording i id →
    row.attempts + 1 = failures id s.log
  fresh : ∀ id, s.rows.length ≤ id → failures id s.log = 0

section Counts

variable {s t : State} {i j : InstanceId} {id : OutboxId} {a : Act} {ph' : Phase}
  {rows' : List AnalyticsOutbox} {evs : List Event} {count : OutboxId → Nat}

theorem counts_iff_tallied : Counts s ↔ Tallied (failures · s.log) s :=
  ⟨fun h => ⟨h.1, h.2, h.3⟩, fun h => ⟨h.1, h.2, h.3⟩⟩

theorem failures_append (evs log : List Event) :
    failures id (evs ++ log) = failures id evs + failures id log := List.countP_append

theorem State.Recording.publishing (h : s.Recording i id) : s.Publishing i id := by
  obtain ⟨t, record, e, n, h⟩ := h
  exact ⟨t, _, h⟩

theorem recording_after_of_ne (hj : j ≠ i) :
    (s.after i ph' rows' evs).Recording j id ↔ s.Recording j id := by
  simp [State.Recording, State.after, hj]

theorem recording_after_self : (s.after i ph' rows' evs).Recording i id ↔
    ∃ t record e n, ph'.lease = some (id, t, .undelivered record e n) := by
  simp [State.Recording, State.after]

theorem Tallied.keep (hs : Tallied count s) (hlen : rows'.length = s.rows.length)
    (hrows : ∀ (id : OutboxId) row', rows'[id]? = some row' →
      ∃ row, s.rows[id]? = some row ∧ row.attempts = row'.attempts)
    (hi : ∀ id, ¬ s.Recording i id)
    (hi' : ∀ id t record e n, ph'.lease ≠ some (id, t, .undelivered record e n)) :
    Tallied count (s.after i ph' rows' evs) := by
  have hrec : ∀ j id, (s.after i ph' rows' evs).Recording j id ↔ s.Recording j id := fun j id => by
    by_cases hj : j = i
    · subst hj
      simp [recording_after_self, hi', hi]
    · exact recording_after_of_ne hj
  refine ⟨fun id row' hrow' hno => ?_, fun id row' hrow' j hj => ?_, fun id hid => ?_⟩
  · obtain ⟨row, hrow, hatt⟩ := hrows id row' hrow'
    rw [← hatt, hs.settled id row hrow fun j => (hrec j id).not.1 (hno j)]
  · obtain ⟨row, hrow, hatt⟩ := hrows id row' hrow'
    rw [← hatt, hs.recording id row hrow j ((hrec j id).1 hj)]
  · exact hs.fresh id (hlen ▸ hid)

theorem Tallied.fail {id : OutboxId} {rest : List OutboxId} {t n : Nat} {stage : Stage}
    {record : AnalyticsOutbox} {e : String} (hs : Tallied count s) (hx : Exclusive s)
    (hph : s.phase i = .publishing id rest t stage)
    (hstage : ∀ record e n, stage ≠ .undelivered record e n) :
    Tallied (Function.update count id (count id + 1))
      (s.after i (.publishing id rest t (.undelivered record e n)) s.rows evs) := by
  have hi : ∀ j, ¬ s.Recording j id := fun j hj => by
    obtain rfl := hx.unique hj.publishing ⟨t, _, by rw [hph]; rfl⟩
    obtain ⟨_, _, _, _, hj⟩ := hj
    rw [hph] at hj
    exact hstage _ _ _ (Prod.mk.inj (Prod.mk.inj (Option.some.inj hj)).2).2
  have hother : ∀ j id', id' ≠ id →
      ((s.after i (.publishing id rest t (.undelivered record e n)) s.rows evs).Recording
        j id' ↔ s.Recording j id') := fun j id' hid => by
    by_cases hj : j = i
    · subst hj
      simp [State.Recording, State.after, hph, Phase.lease, hid.symm]
    · exact recording_after_of_ne hj
  refine ⟨fun id' row hrow hno => ?_, fun id' row hrow j hj => ?_, fun id' hid => ?_⟩
  · by_cases hid : id' = id
    · subst hid
      exact absurd (recording_after_self.2 ⟨t, record, e, n, rfl⟩) (hno i)
    · rw [Function.update_of_ne hid]
      exact hs.settled id' row hrow fun j => (hother j id' hid).not.1 (hno j)
  · by_cases hid : id' = id
    · subst hid
      rw [Function.update_self, hs.settled id' row hrow hi]
    · rw [Function.update_of_ne hid]
      exact hs.recording id' row hrow j ((hother j id' hid).1 hj)
  · have hne : id' ≠ id := by
      rintro rfl
      obtain ⟨row, hrow, -⟩ := hx.held i id' t _ (by rw [hph]; rfl)
      exact absurd (List.getElem?_eq_some_iff.1 hrow).1 (Nat.not_lt.2 hid)
    rw [Function.update_of_ne hne]
    exact hs.fresh id' hid

theorem Tallied.record {id : OutboxId} {rest : List OutboxId} {t n : Nat} {record : AnalyticsOutbox}
    {e : String} (hs : Tallied count s) (hl : Leases s) (hx : Exclusive s)
    (hph : s.phase i = .publishing id rest t (.undelivered record e n)) (hnone : ph'.lease = none) :
    Tallied count (s.after i ph' (s.rows.modify id (failedData record e n)) []) := by
  have hlease : (s.phase i).lease = some (id, t, .undelivered record e n) := by rw [hph]; rfl
  have hrecording : s.Recording i id := ⟨t, record, e, n, hlease⟩
  have hno : ∀ id', ¬ (s.after i ph' (s.rows.modify id (failedData record e n))
    []).Recording i id' :=
    fun id' h => by
      obtain ⟨_, _, _, _, h⟩ := recording_after_self.1 h
      simp [hnone] at h
  have hother : ∀ j id', id' ≠ id →
      ((s.after i ph' (s.rows.modify id (failedData record e n)) []).Recording j id' ↔
        s.Recording j id') := fun j id' hid => by
    by_cases hj : j = i
    · subst hj
      constructor
      · exact fun h => absurd h (hno id')
      · rintro ⟨t', record', e', n', h⟩
        rw [hlease] at h
        simp [hid.symm] at h
    · exact recording_after_of_ne hj
  refine ⟨fun id' row' hrow' hall => ?_, fun id' row' hrow' j hj => ?_, fun id' hid => ?_⟩
  · rcases modify_cases hrow' with ⟨rfl, row, hrow, rfl⟩ | ⟨hid, hrow⟩
    · obtain ⟨row₀, hrow₀, hby⟩ := hx.held i id' t _ hlease
      rw [hrow] at hrow₀
      cases hrow₀
      have hread := (hl.current i id' t _ row hlease hrow hby).attempts record rfl
      rw [failedData_attempts, hread]
      exact hs.recording id' row hrow i hrecording
    · exact hs.settled id' row' hrow fun j => (hother j id' hid).not.1 (hall j)
  · rcases modify_cases hrow' with ⟨rfl, row, hrow, rfl⟩ | ⟨hid, hrow⟩
    · have hne : j ≠ i := by
        rintro rfl
        exact hno id' hj
      exact absurd (hx.unique ((recording_after_of_ne hne).1 hj).publishing
        hrecording.publishing) hne
    · exact hs.recording id' row' hrow j ((hother j id' hid).1 hj)
  · exact hs.fresh id' (by simpa [State.after] using hid)

theorem Tallied.enqueue {row' : AnalyticsOutbox} (hs : Tallied count s) (hx : Exclusive s)
    (hrow' : row'.attempts = 0) : Tallied count { s with rows := s.rows ++ [row'] } where
  settled id row hrow hno := by
    rcases append_cases hrow with hrow | ⟨rfl, rfl⟩
    · exact hs.settled id row hrow hno
    · rw [hrow', hs.fresh _ (Nat.le_refl _)]
  recording id row hrow i hi := by
    rcases append_cases hrow with hrow | ⟨rfl, rfl⟩
    · exact hs.recording id row hrow i hi
    · obtain ⟨t, stage, hlease⟩ := hi.publishing
      obtain ⟨row, hrow, -⟩ := hx.held i _ t stage hlease
      exact absurd (List.getElem?_eq_some_iff.1 hrow).1 (Nat.lt_irrefl _)
  fresh id hid := hs.fresh id (by simp at hid; omega)

def tally (count : OutboxId → Nat) (x : Step State Move) (id : OutboxId) : Nat :=
  count id + if failing id x then 1 else 0

theorem tally_of_not_failing {x : Step State Move} (h : ∀ id, failing id x = false) :
    tally count x = count := by
  funext id
  simp [tally, h]

theorem tally_of_failing {x : Step State Move} (id : OutboxId)
    (h : ∀ id', failing id' x = decide (id = id')) :
    tally count x = Function.update count id (count id + 1) := by
  funext id'
  by_cases hid : id' = id
  · subst hid
    simp [tally, h]
  · simp [tally, h, hid, Ne.symm hid]

theorem attempts_modify {rows : List AnalyticsOutbox} {id : OutboxId}
    {f : AnalyticsOutbox → AnalyticsOutbox} (hf : ∀ row, (f row).attempts = row.attempts)
    (id' : OutboxId) (row' : AnalyticsOutbox) (h : (rows.modify id f)[id']? = some row') :
    ∃ row, rows[id']? = some row ∧ row.attempts = row'.attempts := by
  rcases modify_cases h with ⟨rfl, row, hrow, rfl⟩ | ⟨-, hrow⟩
  · exact ⟨row, hrow, (hf row).symm⟩
  · exact ⟨row', hrow, rfl⟩

theorem not_recording_of_lease {ph : Phase} (hph : s.phase i = ph)
    (hno : ∀ id t record e n, ph.lease ≠ some (id, t, .undelivered record e n)) (id : OutboxId) :
    ¬ s.Recording i id := by
  rintro ⟨t, record, e, n, h⟩
  exact hno id t record e n (by rw [← hph, h])

theorem Tallied.step {x : Step State Move} (hs : Tallied count x.before) (hl : Leases x.before)
    (hex : Exclusive x.before) (hx : Records x) (hm : step x.before x.move = some x.after) :
    Tallied (tally count x) x.after := by
  obtain ⟨s, m, t⟩ := x
  dsimp only at hs hl hex hm ⊢
  cases m with
  | clock now =>
    obtain ⟨-, rfl⟩ : s.now ≤ now ∧ { s with now } = t := by
      simpa [AnalyticsOutboxPublisher.step] using hm
    rw [tally_of_not_failing fun _ => rfl]
    exact ⟨hs.settled, hs.recording, hs.fresh⟩
  | enqueue fact correlationId =>
    cases hm
    rw [tally_of_not_failing fun _ => rfl]
    exact hs.enqueue hex rfl
  | act i a =>
    obtain ⟨⟨ph', rows', evs⟩, hadv, ht⟩ := Option.map_eq_some_iff.1 hm
    obtain rfl : s.after i ph' rows' evs = t := ht
    have ha := advance_cases hadv
    generalize hph : s.phase i = ph at ha hadv
    have hi := not_recording_of_lease hph
    have hsame : ∀ (id : OutboxId) row, s.rows[id]? = some row →
        ∃ row', s.rows[id]? = some row' ∧
          row'.attempts = row.attempts := fun id row h => ⟨row, h, rfl⟩
    -- only a failed send moves the count
    have hquiet : ∀ {t}, (∀ id, failing id ⟨s, .act i a, t⟩ = false) →
        tally count ⟨s, .act i a, t⟩ = count := tally_of_not_failing
    cases ha with
    | poll =>
      rw [hquiet fun id => by simp [failing], State.after, ← hph, Function.update_eq_self]
      exact ⟨hs.settled, hs.recording, hs.fresh⟩
    | go hnone hnone' =>
      rw [hquiet fun id => by
        simp only [failing, hph]
        split <;> simp_all [Phase.lease]]
      exact hs.keep rfl hsame (hi (by simp [hnone])) (by simp [hnone'])
    | missing =>
      rw [hquiet fun id => by simp [failing, hph]]
      exact hs.keep rfl hsame (hi (by simp [Phase.lease])) (by simp [Phase.lease])
    | abandon ha hl =>
      have hnot : ∀ id, ¬ s.Recording i id := fun id hrec => by
        obtain ⟨hstop, hfault⟩ := hx i id hrec
        rcases ha with rfl | ⟨e, rfl⟩
        · exact hstop rfl
        · exact hfault e rfl
      rw [hquiet fun id => by
        simp only [failing, hph]
        split
        · rcases ha with h | ⟨e, h⟩ <;> cases h
        · -- a failed update after a send is a failed send
          cases hadv
          rcases hl with h | h <;> cases h
        · rfl]
      refine hs.keep rfl hsame hnot ?_
      rcases hl with rfl | rfl <;> simp [Phase.lease]
    | claim =>
      rw [hquiet fun id => by simp [failing, hph]]
      exact hs.keep (by simp) (attempts_modify fun _ => rfl) (hi (by simp [Phase.lease]))
        (by simp [Phase.lease])
    | read =>
      rw [hquiet fun id => by simp [failing, hph]]
      exact hs.keep rfl hsame (hi (by simp [Phase.lease])) (by simp [Phase.lease])
    | delivered =>
      rw [hquiet fun id => by simp [failing, hph]]
      exact hs.keep rfl hsame (hi (by simp [Phase.lease])) (by simp [Phase.lease])
    | @undelivered id =>
      rw [tally_of_failing id fun id' => by simp [failing, hph]]
      exact hs.fail hex hph (by simp)
    | @fault id =>
      rw [tally_of_failing id fun id' => by simp [failing, hph]]
      exact hs.fail hex hph (by simp)
    | published =>
      rw [hquiet fun id => by simp [failing, hph]]
      exact hs.keep (by simp) (attempts_modify fun _ => rfl) (hi (by simp [Phase.lease])) (by simp)
    | failed =>
      rw [hquiet fun id => by simp [failing, hph]]
      exact hs.record hl hex hph (next_lease _ _)

theorem failures_step {x : Step State Move} (hx : Prompt x)
    (hm : step x.before x.move = some x.after) (id : OutboxId) :
    failures id x.after.log = tally (failures · x.before.log) x id := by
  obtain ⟨s, m, t⟩ := x
  dsimp only at hm ⊢
  cases m with
  | clock now =>
    obtain ⟨-, rfl⟩ : s.now ≤ now ∧ { s with now } = t := by
      simpa [AnalyticsOutboxPublisher.step] using hm
    rfl
  | enqueue fact correlationId =>
    cases hm
    rfl
  | act i a =>
    obtain ⟨ph', rows', evs, ha, rfl⟩ := step_act hm
    generalize hph : s.phase i = ph at ha
    simp only [State.after, failures_append, tally]
    rw [Nat.add_comm]
    refine congrArg _ ?_
    cases ha with
    | poll => simp [failing, failures]
    | go hnone hnone' =>
      simp only [failing, hph]
      split <;> simp_all [Phase.lease, failures]
    | abandon ha hl =>
      rcases ha with rfl | ⟨e, rfl⟩
      · simp [failing, failures]
      · exact absurd rfl (hx.answered i e)
    | fault => exact absurd rfl (hx.answered i _)
    | _ => simp [failing, hph, failures]

theorem Counts.step {x : Step State Move} (hs : Counts x.before) (hl : Leases x.before)
    (hex : Exclusive x.before) (hx : Prompt x) (hm : step x.before x.move = some x.after) :
    Counts x.after := by
  rw [counts_iff_tallied, show (failures · x.after.log) = _ from funext (failures_step hx hm)]
  exact (counts_iff_tallied.1 hs).step hl hex hx.records hm

theorem finished_step {x : Step State Move} {row : AnalyticsOutbox} (hl : Leases x.before)
    (hex : Exclusive x.before) (hm : step x.before x.move = some x.after)
    (hrow : x.before.rows[id]? = some row) (hfin : finished row = true) :
    x.after.rows[id]? = some row ∧ sends id x.after.log = sends id x.before.log := by
  obtain ⟨s, m, t⟩ := x
  dsimp only at hl hex hm hrow ⊢
  cases m with
  | clock now =>
    obtain ⟨-, rfl⟩ : s.now ≤ now ∧ { s with now } = t := by
      simpa [AnalyticsOutboxPublisher.step] using hm
    exact ⟨hrow, rfl⟩
  | enqueue fact correlationId =>
    cases hm
    exact ⟨by rw [List.getElem?_append_left (List.getElem?_eq_some_iff.1 hrow).1, hrow], rfl⟩
  | act i a =>
    obtain ⟨ph', rows', evs, ha, rfl⟩ := step_act hm
    generalize hph : s.phase i = ph at ha
    -- what is published is not finished
    have hne : ∀ {id' t stage}, ph.lease = some (id', t, stage) → id' ≠ id := by
      rintro id' t stage hlease rfl
      rw [← hph] at hlease
      obtain ⟨row', hrow', hby⟩ := hex.held i id' t stage hlease
      rw [hrow] at hrow'
      cases hrow'
      rw [(hl.current i id' t stage row hlease hrow hby).unfinished] at hfin
      exact absurd hfin (by decide)
    cases ha with
    | @claim id' rest n row' hrow' hc =>
      have hid : id' ≠ id := by
        rintro rfl
        rw [hrow] at hrow'
        cases hrow'
        simp [claimable, hfin] at hc
      exact ⟨by simp [State.after, hid, hrow], by simp [State.after, sends]⟩
    | read => exact ⟨hrow, by simp [State.after, sends, hne rfl]⟩
    | published | failed =>
      have hid := hne rfl
      exact ⟨by simp [State.after, hid, hrow], by simp [State.after]⟩
    | _ => exact ⟨hrow, by simp [State.after, sends]⟩

end Counts

section

variable {g h : List (Step State Move)} {s u : State}

structure Ledger (s : State) : Prop where
  leases : Leases s
  exclusive : Exclusive s
  counts : Counts s

theorem Ledger.start : Ledger {} := ⟨.start, ⟨by simp [Phase.lease], by simp [Timed]⟩,
  ⟨by simp, by simp, fun _ _ => rfl⟩⟩

theorem Ledger.step {x : Step State Move} (hs : Ledger x.before) (hx : Prompt x)
    (hm : step x.before x.move = some x.after) : Ledger x.after :=
  ⟨hs.leases.step hs.exclusive.locked hm, hs.exclusive.step (hx.alone hs.exclusive hs.leases) hm,
    hs.counts.step hs.leases hs.exclusive hx hm⟩

theorem Ledger.accounted (hs : Ledger s) : Accounted s where
  exclusive i j id := hs.exclusive.unique
  settled := hs.counts.settled
  recording := hs.counts.recording
  capped row hrow := by
    obtain ⟨id, hid⟩ := List.getElem?_of_mem hrow
    exact (hs.leases.sane id row hid).attempts_le
  deadLettered row hrow := by
    obtain ⟨id, hid⟩ := List.getElem?_of_mem hrow
    exact (hs.leases.sane id row hid).deadLettered

theorem ledger_of_run (hs : Ledger s) (hrun : publishers.Run s h u) (hprompt : ∀ x ∈ h, Prompt x) :
    Ledger u :=
  hrun.invariant hprompt hs fun _ => Ledger.step

/-- Instances that are prompt exclude each other and count the failed sends of a row, each when
its publish ends; a row that is published or dead-lettered is not sent again. -/
theorem outbox_deliveries_accounted (hrun : publishers.Run {} h s) (hprompt : ∀ x ∈ h, Prompt x) :
    Accounted s ∧ ∀ g u, publishers.Run s g u → (∀ x ∈ g, Prompt x) →
      ∀ (id : OutboxId) row, s.rows[id]? = some row → finished row = true →
        sends id u.log = sends id s.log := by
  have hs := ledger_of_run .start hrun hprompt
  refine ⟨hs.accounted, fun g u hu hg id row hrow hfin => ?_⟩
  have hinv : Ledger u ∧ u.rows[id]? = some row ∧ sends id u.log = sends id s.log := by
    refine hu.invariant (I := fun u => Ledger u ∧ u.rows[id]? = some row ∧
      sends id u.log = sends id s.log) hg ⟨hs, hrow, rfl⟩ ?_
    rintro x ⟨hl, hrow, hsent⟩ hx hm
    obtain ⟨hrow', hsame⟩ := finished_step hl.leases hl.exclusive hm hrow hfin
    exact ⟨hl.step hx hm, hrow', hsame.trans hsent⟩
  exact hinv.2.2

def Move.actor : Move → Option InstanceId
  | .act i _ => some i
  | _ => none

def Move.faulty : Move → Bool
  | .act _ (.fault _) => true
  | _ => false

def PromptAmong (is : List InstanceId) (x : Step State Move) : Prop :=
  (∀ i ∈ x.move.actor, i ∈ is) ∧ x.move.faulty = false ∧
    ∀ i ∈ is, ∀ l ∈ (x.before.phase i).lease, x.move ≠ .act i .stop ∧ x.before.now ≤ l.2.1 + 60000

instance (is : List InstanceId) (x : Step State Move) : Decidable (PromptAmong is x) :=
  inferInstanceAs (Decidable (_ ∧ _ ∧ _))

theorem prompt_of_among {is : List InstanceId} (hrun : publishers.Run {} h s)
    (his : ∀ x ∈ h, PromptAmong is x) : ∀ x ∈ h, Prompt x := by
  intro x hx
  obtain ⟨-, g, hg, hr⟩ := hrun.of_mem hx
  obtain ⟨hactor, hfault, hok⟩ := his x hx
  have hidle : ∀ i, i ∉ is → x.before.phase i = .idle := fun i hi =>
    hr.invariant (I := fun s => s.phase i = .idle) (fun y hy => (his y (hg y hy)).1) rfl
      fun y hs hact hm => by
        obtain ⟨s, m, t⟩ := y
        dsimp only at hs hact hm ⊢
        cases m with
        | clock now =>
          obtain ⟨-, rfl⟩ : s.now ≤ now ∧ { s with now } = t := by
            simpa [publishers, step] using hm
          exact hs
        | enqueue fact correlationId =>
          cases hm
          exact hs
        | act j a =>
          obtain ⟨ph', rows', evs, -, rfl⟩ := step_act hm
          have hne : i ≠ j := fun h => hi (h ▸ hact j rfl)
          simpa [State.after, hne] using hs
  refine ⟨fun i e h => ?_, fun i h => ?_, fun i id t stage h => ?_⟩
  · simp [h, Move.faulty] at hfault
  · cases hl : (x.before.phase i).lease with
    | none => rfl
    | some l => exact absurd h (hok i (hactor i (by rw [h]; rfl)) l hl).1
  · by_cases hi : i ∈ is
    · exact (hok i hi _ h).2
    · rw [hidle i hi] at h
      cases h

def retry : List Move :=
  .enqueue sampleFact none :: (attempt 0 (.error "timeout") ++ .clock 300000 :: attempt 1 (.ok ()))

theorem outbox_deliveries_accounted_retry : ∃ h s, publishers.Run {} h s ∧ Accounted s ∧
    ∃ row ∈ s.rows, row.attempts = 1 ∧ row.publishedAt.isSome := by
  have hrun : (publishers.trace {} retry).any (fun x => decide (∀ y ∈ x.1, PromptAmong [0, 1] y) &&
      x.2.rows.any fun row => row.attempts = 1 ∧ row.publishedAt.isSome) := by decide +kernel
  obtain ⟨⟨h, s⟩, hx, hok⟩ := (Option.any_eq_true _ _).1 hrun
  obtain ⟨hprompt, hok⟩ := Bool.and_eq_true_iff.1 hok
  obtain ⟨row, hrow, hrow'⟩ := List.any_eq_true.1 hok
  have hr := Machine.run_trace hx
  exact ⟨h, s, hr, (outbox_deliveries_accounted hr
    (prompt_of_among hr (of_decide_eq_true hprompt))).1,
    row, hrow, of_decide_eq_true hrow'⟩

/-- Between the failure of a send and the update that records it the count is one short. -/
theorem outbox_deliveries_behind : ¬ ∀ h s, publishers.Run {} h s → (∀ x ∈ h, Prompt x) →
    ∀ (id : OutboxId) row, s.rows[id]? = some row → row.attempts = failures id s.log := by
  intro hall
  have hrun : (publishers.trace {} (.enqueue sampleFact none ::
      (attempt 0 (.error "timeout")).take 5)).any (fun x =>
        decide (∀ y ∈ x.1, PromptAmong [0] y) && (x.2.rows[0]?).any fun row =>
          row.attempts ≠ failures 0 x.2.log) := by decide +kernel
  obtain ⟨⟨h, s⟩, hx, hok⟩ := (Option.any_eq_true _ _).1 hrun
  obtain ⟨hprompt, hok⟩ := Bool.and_eq_true_iff.1 hok
  obtain ⟨row, hrow, hne⟩ := (Option.any_eq_true _ _).1 hok
  have hr := Machine.run_trace hx
  exact of_decide_eq_true hne
    (hall h s hr (prompt_of_among hr (of_decide_eq_true hprompt)) 0 row hrow)

end

end InvitationService.AnalyticsOutboxPublisher

import InvitationService.Publisher.Backoff
import Mathlib.Data.Finset.Card

namespace InvitationService.AnalyticsOutboxPublisher

open Machine (Step)

/-! One instance that is left to itself empties the outbox. -/

section

variable {s t u : State} {i : InstanceId} {a : Act} {ph ph' : Phase} {evs : List Event}
  {rows rows' : List AnalyticsOutbox} {row record : AnalyticsOutbox} {id : OutboxId} {n m : Nat}

def Phase.Dated (now : Nat) : Phase → Prop
  | .claiming _ _ n => n ≤ now
  | .publishing _ _ _ (.undelivered _ _ n) => n ≤ now
  | _ => True

structure Dated (s : State) : Prop where
  locked : ∀ row ∈ s.rows, ∀ n, row.lockedAt = some n → n ≤ s.now
  due : ∀ row ∈ s.rows, row.nextAttemptAt ≤ s.now + 300000
  phase : ∀ i, (s.phase i).Dated s.now

theorem Phase.Dated.mono (h : ph.Dated n) (hnm : n ≤ m) : ph.Dated m := by
  cases ph with
  | claiming id rest k => exact Nat.le_trans h hnm
  | publishing id rest k stage =>
    cases stage with
    | undelivered record e k => exact Nat.le_trans h hnm
    | _ => trivial
  | _ => trivial

theorem next_dated (now : Nat) (ids : List OutboxId) : (next now ids).Dated now := by
  cases ids with
  | nil => trivial
  | cons id rest => exact Nat.le_refl now

theorem Dated.after (hs : Dated s) (hph : ph'.Dated s.now)
    (hlock : ∀ row ∈ rows', ∀ n, row.lockedAt = some n → n ≤ s.now)
    (hdue : ∀ row ∈ rows', row.nextAttemptAt ≤ s.now + 300000) :
    Dated (s.after i ph' rows' evs) where
  locked := hlock
  due := hdue
  phase j := by
    by_cases hj : j = i
    · subst hj
      simpa [State.after] using hph
    · simpa [State.after, hj] using hs.phase j

theorem Dated.stay (hs : Dated s) (hph : ph'.Dated s.now) : Dated (s.after i ph' s.rows evs) :=
  hs.after hph hs.locked hs.due

theorem forall_mem_modify {P : AnalyticsOutbox → Prop} {f : AnalyticsOutbox → AnalyticsOutbox}
    (h : ∀ row ∈ rows, P row) (hf : ∀ row ∈ rows, P (f row)) : ∀ row ∈ rows.modify id f, P row := by
  intro row hrow
  obtain ⟨k, hk⟩ := List.getElem?_of_mem hrow
  rcases modify_cases hk with ⟨-, row₀, hrow₀, rfl⟩ | ⟨-, hrow⟩
  · exact hf row₀ (List.mem_of_getElem? hrow₀)
  · exact h row (List.mem_of_getElem? hrow)

theorem Dated.write {f : AnalyticsOutbox → AnalyticsOutbox} (hs : Dated s) (hph : ph'.Dated s.now)
    (hlock : ∀ row ∈ s.rows, ∀ n, (f row).lockedAt = some n → n ≤ s.now)
    (hdue : ∀ row ∈ s.rows, (f row).nextAttemptAt ≤ s.now + 300000) :
    Dated (s.after i ph' (s.rows.modify id f) evs) :=
  hs.after hph (forall_mem_modify hs.locked hlock) (forall_mem_modify hs.due hdue)

theorem Dated.step {x : Step State Move} (hs : Dated x.before)
    (hm : step x.before x.move = some x.after) : Dated x.after := by
  obtain ⟨s, m, t⟩ := x
  dsimp only at hs hm ⊢
  cases m with
  | clock now =>
    obtain ⟨hnow, rfl⟩ : s.now ≤ now ∧ { s with now } = t := by
      simpa [AnalyticsOutboxPublisher.step] using hm
    exact ⟨fun row hrow n hn => (hs.locked row hrow n hn).trans hnow,
      fun row hrow => (hs.due row hrow).trans (Nat.add_le_add_right hnow _),
      fun i => (hs.phase i).mono hnow⟩
  | enqueue fact correlationId =>
    cases hm
    refine ⟨?_, ?_, hs.phase⟩
    · exact List.forall_mem_append.2 ⟨hs.locked, by simp⟩
    · exact List.forall_mem_append.2 ⟨hs.due, by simp⟩
  | act i a =>
    obtain ⟨ph', rows', evs, ha, rfl⟩ := step_act hm
    have hph := hs.phase i
    generalize s.phase i = ph at ha hph
    cases ha with
    | poll => exact hs.stay hph
    | go hl hl' hclaim =>
      refine hs.stay ?_
      cases ph' with
      | claiming id rest n => exact (hclaim id rest n rfl).le
      | publishing => cases hl'
      | _ => trivial
    | missing => exact hs.stay trivial
    | abandon _ hl => rcases hl with rfl | rfl <;> exact hs.stay trivial
    | claim =>
      refine hs.write trivial (fun row _ n hn => ?_) hs.due
      obtain rfl := Option.some.inj hn
      exact hph
    | read => exact hs.stay trivial
    | delivered => exact hs.stay trivial
    | undelivered => exact hs.stay (Nat.le_refl s.now)
    | fault => exact hs.stay (Nat.le_refl s.now)
    | published => exact hs.write (next_dated _ _) (fun row _ n hn => by cases hn) hs.due
    | @failed id rest k record e n =>
      have hn : n ≤ s.now := hph
      refine hs.write (next_dated _ _) (fun row _ n hn => ?_) fun row hrow => ?_
      · unfold failedData at hn
        dsimp only at hn
        split at hn <;> cases hn
      · unfold failedData
        dsimp only
        split
        · exact hs.due row hrow
        · dsimp only
          omega

theorem dated_of_run {g : List (Step State Move)} (hrun : publishers.Run {} g s) : Dated s :=
  hrun.invariant (P := fun _ => True) (fun _ _ => trivial) ⟨by simp, by simp, fun _ => trivial⟩
    fun _ hs _ hm => hs.step hm

end

/-- `i` alone is still at work, and nothing fails. -/
def Move.smooth (i : InstanceId) : Move → Bool
  | .act _ (.fault _) | .act _ .stop | .act _ (.settle (.error _)) => false
  | .act j _ => j = i
  | _ => true

inductive Smooth (i : InstanceId) (rows : List AnalyticsOutbox) (now : Nat) :
    Phase → Act → Phase → List AnalyticsOutbox → List Event → Prop
  | wait {ph : Phase} : ph ≠ .idle → Smooth i rows now ph .poll ph rows []
  | poll : Smooth i rows now .idle .poll (.selecting now) rows []
  | select {n ids} : Candidates rows n ids →
      Smooth i rows now (.selecting n) (.select ids) (next now ids) rows []
  | claim {id rest n} : Smooth i rows now (.claiming id rest n) .claim
      (.publishing id rest n .reading) (rows.modify id (claimData i n)) [.claimed i id]
  | skip {id rest n} : (∀ row, rows[id]? = some row → claimable n row = false) →
      Smooth i rows now (.claiming id rest n) .claim (next now rest) rows []
  | read {id rest n record} : rows[id]? = some record →
      Smooth i rows now (.publishing id rest n .reading) .read
        (.publishing id rest n (.sending record)) rows [.sent id (message id record)]
  | missing {id rest n} : rows[id]? = none →
      Smooth i rows now (.publishing id rest n .reading) .read .idle rows []
  | delivered {id rest n record u} :
      Smooth i rows now (.publishing id rest n (.sending record)) (.settle (.ok u))
        (.publishing id rest n (.delivered record now)) rows []
  | published {id rest n record m} :
      Smooth i rows now (.publishing id rest n (.delivered record m)) .update (next now rest)
        (rows.modify id (publishedData m)) []
  | failed {id rest n record e m rows' ph'} :
      Smooth i rows now (.publishing id rest n (.undelivered record e m)) .update ph' rows' []

section

variable {s t u : State} {i : InstanceId} {a : Act} {ph ph' : Phase} {evs : List Event}
  {rows rows' : List AnalyticsOutbox} {row record : AnalyticsOutbox} {id : OutboxId}
  {ids : List OutboxId} {now n m c k B T : Nat}

theorem smooth_cases (h : advance i rows now ph a = some (ph', rows', evs))
    (ha : (Move.act i a).smooth i = true) : Smooth i rows now ph a ph' rows' evs := by
  unfold advance at h
  split at h
  · simp at h
  · cases h
    exact .poll
  · rename_i hne
    cases h
    exact .wait hne
  · split at h
    · cases h
      exact .select ‹_›
    · simp at h
  · split at h
    · cases h
      exact .claim
    · rename_i hfree
      cases h
      refine .skip fun row hrow => ?_
      simpa [hrow] using hfree
  · split at h
    · cases h
      exact .read ‹_›
    · cases h
      exact .missing ‹_›
  · split at h
    · cases h
      exact .delivered
    · simp [Move.smooth] at ha
  · cases h
    exact .published
  · cases h
    exact .failed
  all_goals simp [Move.smooth] at ha h

structure Waiting (rows : List AnalyticsOutbox) (n : Nat) (ids : List OutboxId) : Prop where
  nodup : ids.Nodup
  claimable : ∀ id ∈ ids, ∃ row, rows[id]? = some row ∧ claimable n row = true

def Stage.Sound (rows : List AnalyticsOutbox) (log : List Event) (id : OutboxId) : Stage → Prop
  | .reading => True
  | .sending _ | .delivered _ _ => ∀ row, rows[id]? = some row → .sent id (message id row) ∈ log
  | .undelivered _ _ _ => False

def Proceeds (rows : List AnalyticsOutbox) (now : Nat) (log : List Event) : Phase → Prop
  | .idle => True
  | .selecting n => n ≤ now
  | .claiming id rest n => n ≤ now ∧ Waiting rows n (id :: rest)
  | .publishing id rest n stage => n ≤ now ∧ id ∉ rest ∧ Waiting rows n rest ∧
      (∃ row, rows[id]? = some row ∧ finished row = false) ∧ stage.Sound rows log id
  | .stopped => False

theorem unlocked_mono (h : unlocked n row = true) (hnm : n ≤ m) : unlocked m row = true := by
  unfold unlocked at h ⊢
  cases hk : row.lockedAt with
  | none => rfl
  | some k =>
    rw [hk] at h
    exact decide_eq_true (Nat.lt_of_lt_of_le (of_decide_eq_true h) hnm)

theorem claimable_mono (h : claimable n row = true) (hnm : n ≤ m) : claimable m row = true := by
  obtain ⟨hfin, hfree⟩ := Bool.and_eq_true_iff.1 h
  exact Bool.and_eq_true_iff.2 ⟨hfin, unlocked_mono hfree (Nat.sub_le_sub_right hnm 60000)⟩

theorem Waiting.mono (h : Waiting rows n ids) (hnm : n ≤ m) : Waiting rows m ids :=
  ⟨h.nodup, fun id hid => by
    obtain ⟨row, hrow, hc⟩ := h.claimable id hid
    exact ⟨row, hrow, claimable_mono hc hnm⟩⟩

theorem Waiting.modify {f : AnalyticsOutbox → AnalyticsOutbox} (h : Waiting rows n ids)
    (hid : id ∉ ids) : Waiting (rows.modify id f) n ids :=
  ⟨h.nodup, fun k hk => by
    obtain ⟨row, hrow, hc⟩ := h.claimable k hk
    have hne : id ≠ k := fun he => hid (he ▸ hk)
    exact ⟨row, by simpa [List.getElem?_modify, hne] using hrow, hc⟩⟩

theorem Waiting.append (h : Waiting rows n ids) (row' : AnalyticsOutbox) :
    Waiting (rows ++ [row']) n ids :=
  ⟨h.nodup, fun k hk => by
    obtain ⟨row, hrow, hc⟩ := h.claimable k hk
    exact ⟨row, List.getElem?_append_left (List.getElem?_eq_some_iff.1 hrow).1 ▸ hrow, hc⟩⟩

theorem Waiting.proceeds {log : List Event} (h : Waiting rows n ids) (hn : n ≤ now) :
    Proceeds rows now log (next now ids) := by
  cases ids with
  | nil => trivial
  | cons id rest => exact ⟨Nat.le_refl now, h.mono hn⟩

theorem Proceeds.later {log : List Event} (h : Proceeds rows n log ph) (hnm : n ≤ m) :
    Proceeds rows m log ph := by
  cases ph with
  | idle => trivial
  | selecting k => exact Nat.le_trans h hnm
  | claiming id rest k => exact ⟨h.1.trans hnm, h.2⟩
  | publishing id rest k stage => exact ⟨h.1.trans hnm, h.2⟩
  | stopped => exact h

theorem Proceeds.append {log : List Event} (h : Proceeds rows now log ph) (row' : AnalyticsOutbox) :
    Proceeds (rows ++ [row']) now log ph := by
  cases ph with
  | claiming id rest k => exact ⟨h.1, h.2.append row'⟩
  | publishing id rest k stage =>
    obtain ⟨hk, hid, hrest, ⟨row, hrow, hfin⟩, hstage⟩ := h
    have hlt := (List.getElem?_eq_some_iff.1 hrow).1
    refine ⟨hk, hid, hrest.append row', ⟨row, List.getElem?_append_left hlt ▸ hrow, hfin⟩, ?_⟩
    cases stage with
    | undelivered record e j => exact hstage
    | reading => trivial
    | sending record => exact fun x hx => hstage x (by rwa [List.getElem?_append_left hlt] at hx)
    | delivered record j =>
      exact fun x hx => hstage x (by rwa [List.getElem?_append_left hlt] at hx)
  | _ => exact h

theorem Proceeds.step {log : List Event} (h : Proceeds rows now log ph)
    (ha : Smooth i rows now ph a ph' rows' evs) : Proceeds rows' now (evs ++ log) ph' := by
  cases ha with
  | wait => exact h
  | poll => exact Nat.le_refl now
  | @select n ids hids =>
    have hwait : Waiting rows n ids := ⟨hids.1, fun id hid => by
      obtain ⟨row, hrow, hr⟩ := (Option.any_eq_true _ _).1 (hids.2.1 id hid)
      exact ⟨row, hrow, (Bool.and_eq_true_iff.1 hr).1⟩⟩
    exact hwait.proceeds h
  | @claim id rest n =>
    obtain ⟨hn, hwait⟩ := h
    obtain ⟨hid, hrest⟩ := List.nodup_cons.1 hwait.nodup
    obtain ⟨row, hrow, hc⟩ := hwait.claimable id List.mem_cons_self
    have hwait' : Waiting rows n rest :=
      ⟨hrest, fun k hk => hwait.claimable k (List.mem_cons_of_mem _ hk)⟩
    have hfin : finished row = false := by simpa using (Bool.and_eq_true_iff.1 hc).1
    exact ⟨hn, hid, hwait'.modify hid, ⟨claimData i n row, by simp [hrow], hfin⟩, trivial⟩
  | @skip id rest n hfree =>
    obtain ⟨row, hrow, hc⟩ := h.2.claimable id List.mem_cons_self
    rw [hfree row hrow] at hc
    cases hc
  | @read id rest n record hrow =>
    obtain ⟨hn, hid, hwait, hrow', -⟩ := h
    refine ⟨hn, hid, hwait, hrow', fun row hr => ?_⟩
    obtain rfl := Option.some.inj (hrow.symm.trans hr)
    exact List.mem_cons_self
  | missing hrow =>
    obtain ⟨-, -, -, ⟨row, hrow', -⟩, -⟩ := h
    rw [hrow] at hrow'
    cases hrow'
  | delivered => exact h
  | @published id rest n record m =>
    obtain ⟨hn, hid, hwait, -⟩ := h
    exact (hwait.modify hid).proceeds hn
  | failed => exact h.2.2.2.2.elim

/-- The rows created at `c` or before that are neither published nor dead-lettered. -/
def backlog (c : Nat) (rows : List AnalyticsOutbox) : Finset OutboxId :=
  (Finset.range rows.length).filter fun id =>
    (rows[id]?).any fun row => !finished row && decide (row.createdAt ≤ c)

theorem mem_backlog : id ∈ backlog c rows ↔
    ∃ row, rows[id]? = some row ∧ finished row = false ∧ row.createdAt ≤ c := by
  simp only [backlog, Finset.mem_filter, Finset.mem_range, Option.any_eq_true, Bool.and_eq_true,
    Bool.not_eq_true', decide_eq_true_eq]
  constructor
  · rintro ⟨-, row, hrow, h⟩
    exact ⟨row, hrow, h⟩
  · rintro ⟨row, hrow, h⟩
    exact ⟨(List.getElem?_eq_some_iff.1 hrow).1, row, hrow, h⟩

theorem Candidates.covers (hids : Candidates rows n ids)
    (hready : ∀ id ∈ backlog c rows, isReady rows n id = true) :
    (backlog c rows \ ids.toFinset).card + 50 ≤ (backlog c rows).card ∨
      backlog c rows \ ids.toFinset = ∅ := by
  obtain ⟨hnodup, hall, hlength, -, hold⟩ := hids
  rcases Finset.eq_empty_or_nonempty (backlog c rows \ ids.toFinset) with hnone | ⟨p, hp⟩
  · exact .inr hnone
  obtain ⟨hp, hpids⟩ := Finset.mem_sdiff.1 hp
  rw [List.mem_toFinset] at hpids
  obtain ⟨row, hrow, hfin, hc⟩ := mem_backlog.1 hp
  have hpr : p ∈ List.range rows.length := List.mem_range.2 (List.getElem?_eq_some_iff.1 hrow).1
  -- an older row has been left out, so the batch is full and of older rows still
  have hsub : ids.toFinset ⊆ backlog c rows := by
    intro id hid
    have hid := List.mem_toFinset.1 hid
    obtain ⟨x, hx, hr⟩ := (Option.any_eq_true _ _).1 (hall id hid)
    have hcreated := hold p hpr (hready p hp) hpids id hid
    simp only [createdAt, hx, hrow, Option.elim_some] at hcreated
    have hfree := (Bool.and_eq_true_iff.1 (Bool.and_eq_true_iff.1 hr).1).1
    exact mem_backlog.2 ⟨x, hx, by simpa using hfree, hcreated.trans hc⟩
  have hmore : ids.length + 1 ≤ (List.range rows.length).countP (isReady rows n) := by
    have hpids' : (p :: ids).Nodup := List.nodup_cons.2 ⟨hpids, hnodup⟩
    have hsub' : (p :: ids) ⊆ (List.range rows.length).filter (isReady rows n) := by
      intro id hid
      rw [List.mem_filter]
      rcases List.mem_cons.1 hid with rfl | hid
      · exact ⟨hpr, hready _ hp⟩
      · have hlt := Finset.mem_range.1 (Finset.mem_filter.1 (hsub (List.mem_toFinset.2 hid))).1
        exact ⟨List.mem_range.2 hlt, hall id hid⟩
    rw [List.countP_eq_length_filter]
    exact (List.subperm_of_subset hpids' hsub').length_le
  have hfull : ids.toFinset.card = 50 := by
    rw [List.toFinset_card_of_nodup hnodup]
    omega
  have hcard := Finset.card_sdiff_add_card_eq_card hsub
  omega

def Kept (B k : Nat) (left : Finset OutboxId) : Prop := left.card + 50 * k ≤ B ∨ left = ∅

theorem Kept.subset {left left' : Finset OutboxId} (h : Kept B k left) (hsub : left' ⊆ left) :
    Kept B k left' := by
  rcases h with h | rfl
  · exact .inl (Nat.le_trans (Nat.add_le_add_right (Finset.card_le_card hsub) _) h)
  · exact .inr (Finset.subset_empty.1 hsub)

def Phase.batch : Phase → List OutboxId
  | .claiming id rest _ | .publishing id rest _ _ => id :: rest
  | _ => []

@[simp] theorem next_batch (now : Nat) (ids : List OutboxId) : (next now ids).batch = ids := by
  cases ids <;> rfl

def Bounded (B k c T : Nat) (rows : List AnalyticsOutbox) (ph : Phase) : Prop :=
  (∀ n, ph = .selecting n → T < n → ∃ j, k = j + 1 ∧ Kept B j (backlog c rows)) ∧
    ((∀ n, ph = .selecting n → n ≤ T) → Kept B k (backlog c rows \ ph.batch.toFinset))

theorem Bounded.of_kept (hne : ∀ n, ph ≠ .selecting n)
    (h : Kept B k (backlog c rows \ ph.batch.toFinset)) : Bounded B k c T rows ph :=
  ⟨fun n hph => absurd hph (hne n), fun _ => h⟩

theorem Bounded.kept (h : Bounded B k c T rows ph) (hne : ∀ n, ph ≠ .selecting n) :
    Kept B k (backlog c rows \ ph.batch.toFinset) := h.2 fun n hph => absurd hph (hne n)

theorem next_ne_selecting (now : Nat) (ids : List OutboxId) (n : Nat) :
    next now ids ≠ .selecting n := by
  cases ids <;> exact nofun

theorem backlog_modify {f : AnalyticsOutbox → AnalyticsOutbox}
    (hfin : ∀ row, finished (f row) = finished row) (hcreated : ∀ row, (f row).createdAt =
      row.createdAt) :
    backlog c (rows.modify id f) = backlog c rows := by
  ext k
  simp only [mem_backlog, List.getElem?_modify]
  by_cases hk : id = k
  · subst hk
    simp [hfin, hcreated]
  · simp [hk]

theorem backlog_published : backlog c (rows.modify id (publishedData m)) =
    (backlog c rows).erase id := by
  ext k
  simp only [mem_backlog, Finset.mem_erase, List.getElem?_modify]
  by_cases hk : id = k
  · subst hk
    simp [finished, publishedData]
  · simp [hk, Ne.symm hk]

theorem Bounded.step {log : List Event} (h : Bounded B k c T rows ph)
    (hp : Proceeds rows now log ph) (ha : Smooth i rows now ph a ph' rows' evs)
    (hready : ∀ n, ph = .selecting n → T < n → ∀ id ∈ backlog c rows, isReady rows n id = true) :
    Bounded B (k + if a = .poll ∧ ph = .idle ∧ T < now then 1 else 0) c T rows' ph' := by
  cases ha with
  | wait hne =>
    rw [if_neg fun hlate => hne hlate.2.1]
    exact h
  | poll =>
    have hkept : Kept B k (backlog c rows) := by simpa [Phase.batch] using h.kept nofun
    constructor
    · rintro n hn hT
      cases hn
      exact ⟨k, by simp [hT], hkept⟩
    · intro hn
      rw [if_neg fun hlate => absurd hlate.2.2 (Nat.not_lt.2 (hn now rfl))]
      simpa [Phase.batch] using hkept
  | @select n ids hids =>
    rw [if_neg (by simp)]
    refine .of_kept (next_ne_selecting now ids) ?_
    rw [next_batch]
    by_cases hT : T < n
    · -- a round that begins late finds all of the backlog ready
      obtain ⟨j, rfl, hj⟩ := h.1 n rfl hT
      rcases hids.covers (hready n rfl hT) with hcard | hnone
      · rcases hj with hj | hj
        · exact .inl (by omega)
        · rw [hj]
          exact .inr (Finset.empty_sdiff _)
      · exact .inr hnone
    · have hkept := h.2 fun m hm => by
        cases hm
        omega
      exact hkept.subset (Finset.sdiff_subset_sdiff subset_rfl (by simp [Phase.batch]))
  | @claim id rest n =>
    rw [if_neg (by simp)]
    refine .of_kept nofun ?_
    rw [backlog_modify (f := claimData i n) (fun _ => rfl) fun _ => rfl]
    exact h.kept nofun
  | @skip id rest n hfree =>
    obtain ⟨row, hrow, hc⟩ := hp.2.claimable id List.mem_cons_self
    rw [hfree row hrow] at hc
    cases hc
  | read =>
    rw [if_neg (by simp)]
    exact .of_kept nofun (h.kept nofun)
  | missing hrow =>
    obtain ⟨-, -, -, ⟨row, hrow', -⟩, -⟩ := hp
    rw [hrow] at hrow'
    cases hrow'
  | delivered =>
    rw [if_neg (by simp)]
    exact .of_kept nofun (h.kept nofun)
  | @published id rest n record m =>
    rw [if_neg (by simp)]
    refine .of_kept (next_ne_selecting now rest) ((h.kept nofun).subset ?_)
    rw [backlog_published, next_batch]
    -- the row leaves the backlog as it leaves the batch
    intro p hp
    obtain ⟨hp, hrest⟩ := Finset.mem_sdiff.1 hp
    obtain ⟨hne, hp⟩ := Finset.mem_erase.1 hp
    exact Finset.mem_sdiff.2 ⟨hp, by simpa [Phase.batch, hne] using hrest⟩
  | failed => exact hp.2.2.2.2.elim

/-- The instance `i`, left to itself since `s`, works off the rows created at `c` or before; `k` of
its rounds have begun later than at `T`. -/
structure Draining (i : InstanceId) (c T : Nat) (s : State) (k : Nat) (u : State) : Prop where
  now : s.now ≤ u.now
  proceeds : Proceeds u.rows u.now u.log (u.phase i)
  due : ∀ (id : OutboxId) row, u.rows[id]? = some row → row.createdAt ≤ c → row.nextAttemptAt ≤ T
  free : ∀ (id : OutboxId) row, u.rows[id]? = some row → row.createdAt ≤ c →
    (∀ n, row.lockedAt = some n → n ≤ s.now) ∨ u.Publishing i id
  sent : ∀ (id : OutboxId) row, s.rows[id]? = some row → finished row = false →
    ∃ row', u.rows[id]? = some row' ∧
    message id row' = message id row ∧
    (finished row' = true → row'.publishedAt.isSome = true ∧ .sent id (message id row) ∈ u.log)
  bounded : Bounded (backlog c s.rows).card k c T u.rows (u.phase i)

theorem Draining.ready (h : Draining i c (s.now + 300000) s k u) (hph : u.phase i = .selecting n)
    (hn : s.now + 300000 < n) : ∀ id ∈ backlog c u.rows, isReady u.rows n id = true := by
  intro id hid
  obtain ⟨row, hrow, hfin, hc⟩ := mem_backlog.1 hid
  have hdue := h.due id row hrow hc
  have hfree : unlocked (n - 60000) row = true := by
    rcases h.free id row hrow hc with hlock | ⟨t, stage, hl⟩
    · unfold unlocked
      cases hk : row.lockedAt with
      | none => rfl
      | some k =>
        have := hlock k hk
        exact decide_eq_true (by omega)
    · rw [hph] at hl
      cases hl
  have hle : row.nextAttemptAt ≤ n := by omega
  simp [isReady, hrow, AnalyticsOutboxPublisher.ready, claimable, hfin, hfree, hle]

theorem Draining.stay (h : Draining i c T s k u) (hph : Proceeds u.rows u.now (evs ++ u.log) ph')
    (hlease : ∀ id, u.Publishing i id → ∃ n stage, ph'.lease = some (id, n, stage))
    (hb : Bounded (backlog c s.rows).card m c T u.rows ph') :
    Draining i c T s m (u.after i ph' u.rows evs) where
  now := h.now
  proceeds := by simpa [State.after] using hph
  due := h.due
  free id row hrow hc := by
    refine (h.free id row hrow hc).imp_right fun hpub => ?_
    obtain ⟨n, stage, hl⟩ := hlease id hpub
    exact ⟨n, stage, by simpa [State.after] using hl⟩
  sent id row hrow hfin := by
    obtain ⟨row', hrow', hmsg, hsent⟩ := h.sent id row hrow hfin
    exact ⟨row', hrow', hmsg, fun hf => ⟨(hsent hf).1, List.mem_append_right _ (hsent hf).2⟩⟩
  bounded := by simpa [State.after] using hb

theorem Draining.write {f : AnalyticsOutbox → AnalyticsOutbox} (h : Draining i c T s k u)
    (hph : Proceeds (u.rows.modify id f) u.now (evs ++ u.log) ph')
    (hmsg : ∀ row, message id (f row) = message id row)
    (hdue : ∀ row, (f row).nextAttemptAt = row.nextAttemptAt)
    (hlock : (∀ row, (f row).lockedAt = none) ∨ ∃ n stage, ph'.lease = some (id, n, stage))
    (hothers : ∀ id', id' ≠ id → ¬ u.Publishing i id')
    (hpub : ∀ row, row.publishedAt.isSome = true → (f row).publishedAt.isSome = true)
    (hsent : ∀ row, u.rows[id]? = some row → finished (f row) = true → finished row = true ∨
      (f row).publishedAt.isSome = true ∧ .sent id (message id row) ∈ u.log)
    (hb : Bounded (backlog c s.rows).card m c T (u.rows.modify id f) ph') :
    Draining i c T s m (u.after i ph' (u.rows.modify id f) evs) where
  now := h.now
  proceeds := by simpa [State.after] using hph
  due id' row hrow hc := by
    rcases modify_cases hrow with ⟨rfl, row₀, hrow₀, rfl⟩ | ⟨-, hrow⟩
    · have hcreated : (f row₀).createdAt = row₀.createdAt := congrArg (·.timestamp) (hmsg row₀)
      rw [hdue]
      exact h.due _ row₀ hrow₀ (hcreated ▸ hc)
    · exact h.due _ row hrow hc
  free id' row hrow hc := by
    rcases modify_cases hrow with ⟨rfl, row, hrow, rfl⟩ | ⟨hne, hrow⟩
    · rcases hlock with hnone | ⟨n, stage, hl⟩
      · exact .inl fun n hn => by simp [hnone] at hn
      · exact .inr ⟨n, stage, by simpa [State.after] using hl⟩
    · exact .inl ((h.free _ row hrow hc).resolve_right (hothers _ hne))
  sent id' row hrow hfin := by
    obtain ⟨row', hrow', hmsg', hsent'⟩ := h.sent id' row hrow hfin
    by_cases hid : id' = id
    · subst hid
      refine ⟨f row', by simp [State.after, hrow'], (hmsg row').trans hmsg', fun hf => ?_⟩
      rcases hsent row' hrow' hf with hf' | ⟨hp, hlog⟩
      · exact ⟨hpub row' (hsent' hf').1, List.mem_append_right _ (hsent' hf').2⟩
      · exact ⟨hp, List.mem_append_right _ (hmsg' ▸ hlog)⟩
    · refine ⟨row', ?_, hmsg', fun hf => ⟨(hsent' hf).1, List.mem_append_right _ (hsent' hf).2⟩⟩
      simpa [State.after, List.getElem?_modify, Ne.symm hid] using hrow'
  bounded := by simpa [State.after] using hb

/-- The step is one in which `i`, at rest, looks for rows, later than at `T`. -/
def polling (i : InstanceId) (T : Nat) (x : Step State Move) : Bool :=
  x.move = .act i .poll && x.before.phase i = .idle && decide (T < x.before.now)

theorem Draining.act (h : Draining i c (s.now + 300000) s k u)
    (ha : Smooth i u.rows u.now (u.phase i) a ph' rows' evs) :
    Draining i c (s.now + 300000) s (k + if a = .poll ∧ u.phase i = .idle ∧ s.now + 300000 < u.now
      then 1 else 0) (u.after i ph' rows' evs) := by
  have hb := h.bounded.step h.proceeds ha fun n hn hT => h.ready hn hT
  have hp := h.proceeds.step ha
  have hproceeds := h.proceeds
  have hpublishing : ∀ id, u.Publishing i id ↔ ∃ n stage, (u.phase i).lease = some (id, n, stage) :=
    fun _ => .rfl
  generalize u.phase i = ph at ha hb hp hproceeds hpublishing
  cases ha with
  | wait => exact h.stay hp (fun id => (hpublishing id).1) hb
  | poll => exact h.stay hp (fun id hid => by simpa [Phase.lease] using (hpublishing id).1 hid) hb
  | select => exact h.stay hp (fun id hid => by simpa [Phase.lease] using (hpublishing id).1 hid) hb
  | skip => exact h.stay hp (fun id hid => by simpa [Phase.lease] using (hpublishing id).1 hid) hb
  | missing hrow =>
    obtain ⟨-, -, -, ⟨row, hrow', -⟩, -⟩ := hproceeds
    rw [hrow] at hrow'
    cases hrow'
  | read =>
    refine h.stay hp (fun id hid => ?_) hb
    obtain ⟨n, stage, hl⟩ := (hpublishing id).1 hid
    cases hl
    exact ⟨_, _, rfl⟩
  | delivered =>
    refine h.stay hp (fun id hid => ?_) hb
    obtain ⟨n, stage, hl⟩ := (hpublishing id).1 hid
    cases hl
    exact ⟨_, _, rfl⟩
  | @claim id rest n =>
    refine h.write hp (fun _ => rfl) (fun _ => rfl) (.inr ⟨_, _, rfl⟩) (fun id' _ hid' => ?_)
      (fun _ hp => hp) (fun row _ hf => .inl hf) hb
    obtain ⟨m, stage, hl⟩ := (hpublishing id').1 hid'
    cases hl
  | @published id rest n record m =>
    refine h.write hp (fun _ => rfl) (fun _ => rfl) (.inl fun _ => rfl) (fun id' hne hid' => ?_)
      (fun _ _ => rfl) (fun row hrow _ => .inr ⟨rfl, ?_⟩) hb
    · obtain ⟨m, stage, hl⟩ := (hpublishing id').1 hid'
      cases hl
      exact hne rfl
    · exact hproceeds.2.2.2.2 row hrow
  | failed => exact hproceeds.2.2.2.2.elim

theorem backlog_append {row' : AnalyticsOutbox} (hc : c < row'.createdAt) :
    backlog c (rows ++ [row']) = backlog c rows := by
  ext id
  simp only [mem_backlog]
  constructor
  · rintro ⟨row, hrow, hfin, hle⟩
    rcases append_cases hrow with hrow | ⟨-, rfl⟩
    · exact ⟨row, hrow, hfin, hle⟩
    · omega
  · rintro ⟨row, hrow, h⟩
    exact ⟨row, List.getElem?_append_left (List.getElem?_eq_some_iff.1 hrow).1 ▸ hrow, h⟩

theorem Draining.step {x : Step State Move} (h : Draining i c (s.now + 300000) s k x.before)
    (hc : c < s.now) (hx : x.move.smooth i = true) (hm : step x.before x.move = some x.after) :
    Draining i c (s.now + 300000) s (k + if polling i (s.now + 300000) x then 1 else
      0) x.after := by
  obtain ⟨u, move, v⟩ := x
  dsimp only at h hx hm ⊢
  cases move with
  | clock now =>
    obtain ⟨hnow, rfl⟩ : u.now ≤ now ∧ { u with now } = v := by
      simpa [AnalyticsOutboxPublisher.step] using hm
    rw [if_neg (by simp [polling])]
    exact ⟨h.now.trans hnow, h.proceeds.later hnow, h.due, h.free, h.sent, h.bounded⟩
  | enqueue fact correlationId =>
    cases hm
    rw [if_neg (by simp [polling])]
    have hnew : c < u.now := hc.trans_le h.now
    refine ⟨h.now, h.proceeds.append _, fun id row hrow hle => ?_, fun id row hrow hle => ?_,
      fun id row hrow hfin => ?_, ?_⟩
    · rcases append_cases hrow with hrow | ⟨-, rfl⟩
      · exact h.due id row hrow hle
      · exact absurd hle (Nat.not_le.2 hnew)
    · rcases append_cases hrow with hrow | ⟨-, rfl⟩
      · exact h.free id row hrow hle
      · exact absurd hle (Nat.not_le.2 hnew)
    · obtain ⟨row', hrow', hsent⟩ := h.sent id row hrow hfin
      exact ⟨row', List.getElem?_append_left (List.getElem?_eq_some_iff.1 hrow').1 ▸ hrow', hsent⟩
    · have hb := h.bounded
      unfold Bounded at hb ⊢
      rwa [backlog_append hnew]
  | act j a =>
    obtain rfl : j = i := by
      unfold Move.smooth at hx
      split at hx <;> simp_all
    obtain ⟨⟨ph', rows', evs⟩, ha, rfl⟩ := Option.map_eq_some_iff.1 hm
    have hpolling : (polling j (s.now + 300000) ⟨u, .act j a, u.after j ph' rows' evs⟩ = true) =
        (a = .poll ∧ u.phase j = .idle ∧ s.now + 300000 < u.now) := by
      simp [polling, and_assoc]
    have hact := h.act (smooth_cases ha hx)
    simp only [← hpolling] at hact
    exact hact

theorem draining_start {g : List (Step State Move)} (hg : publishers.Run {} g s)
    (hidle : s.phase i = .idle) : Draining i c (s.now + 300000) s 0 s where
  now := Nat.le_refl _
  proceeds := by rw [hidle]; trivial
  due id row hrow _ := (dated_of_run hg).due row (List.mem_of_getElem? hrow)
  free id row hrow _ := .inl ((dated_of_run hg).locked row (List.mem_of_getElem? hrow))
  sent id row hrow hfin := ⟨row, hrow, rfl, fun hf => by rw [hfin] at hf; cases hf⟩
  bounded := by
    rw [hidle]
    exact .of_kept nofun (.inl (by simp [Phase.batch]))

variable {g h : List (Step State Move)}

theorem draining_of_run (hg : publishers.Run {} g s) (hidle : s.phase i = .idle) (hc : c < s.now)
    (hrun : publishers.Run s h t) (hsmooth : ∀ x ∈ h, x.move.smooth i = true) :
    Draining i c (s.now + 300000) s (h.countP (polling i (s.now + 300000))) t := by
  induction hrun with
  | nil => exact draining_start hg hidle
  | @snoc h t u m _ hm ih =>
    have hpast := ih fun x hx => hsmooth x (List.mem_append_left _ hx)
    rw [List.countP_append, List.countP_singleton]
    exact Draining.step (x := ⟨t, m, u⟩) hpast hc (hsmooth _ (by simp)) hm

/-- Whatever has happened before, how many instances have crashed in the middle of what they did: an
instance that is left to itself, and whose sends succeed, empties the outbox.  For every fifty rows
of the backlog it takes one round, begun when the last leases and delays are over; rows recorded
later do not hold up the older ones. -/
theorem outbox_drained (hg : publishers.Run {} g s) (hidle : s.phase i = .idle) (hc : c < s.now)
    (hrun : publishers.Run s h t) (hsmooth : ∀ x ∈ h, x.move.smooth i = true)
    (hrest : t.phase i = .idle)
    (hrounds : (backlog c s.rows).card ≤ 50 * h.countP (polling i (s.now + 300000))) :
    ∀ id ∈ backlog c s.rows, ∃ row row', s.rows[id]? = some row ∧ t.rows[id]? = some row' ∧
      row'.publishedAt.isSome = true ∧ .sent id (message id row) ∈ t.log := by
  have hdrain := draining_of_run hg hidle hc hrun hsmooth
  have hempty : backlog c t.rows = ∅ := by
    have hkept := hdrain.bounded.kept fun n hn => by
      rw [hrest] at hn
      cases hn
    rw [hrest] at hkept
    have hkept : Kept (backlog c s.rows).card (h.countP (polling i (s.now + 300000)))
        (backlog c t.rows) := by simpa [Phase.batch] using hkept
    rcases hkept with hcard | hnone
    · exact Finset.card_eq_zero.1 (by omega)
    · exact hnone
  intro id hid
  obtain ⟨row, hrow, hfin, hle⟩ := mem_backlog.1 hid
  obtain ⟨row', hrow', hmsg, hsent⟩ := hdrain.sent id row hrow hfin
  have hcreated : row'.createdAt = row.createdAt := congrArg (·.timestamp) hmsg
  have hfin' : finished row' = true := by
    by_contra hne
    have hmem : id ∈ backlog c t.rows :=
      mem_backlog.2 ⟨row', hrow', by simpa using hne, hcreated ▸ hle⟩
    rw [hempty] at hmem
    exact absurd hmem (Finset.notMem_empty id)
  exact ⟨row, row', hrow, hrow', hsent hfin'⟩

def crash : List Move :=
  [.enqueue sampleFact none, .act 0 .poll, .act 0 (.select [0]), .act 0 .claim, .act 0 .read,
    .act 0 .stop, .clock 1]

def recovery : List Move := .clock 300002 :: attempt 1 (.ok ())

theorem outbox_drained_crash : ∃ s t : State, s.phase 0 = .stopped ∧ backlog 0 s.rows = {0} ∧
    ∀ id ∈ backlog 0 s.rows, ∃ row row', s.rows[id]? = some row ∧ t.rows[id]? = some row' ∧
      row'.publishedAt.isSome = true ∧ .sent id (message id row) ∈ t.log := by
  have hruns : (publishers.trace {} crash).any (fun x => decide (x.2.phase 0 = .stopped ∧
      x.2.phase 1 = .idle ∧ 0 < x.2.now ∧ backlog 0 x.2.rows = {0}) &&
      (publishers.trace x.2 recovery).any fun y => decide (y.2.phase 1 = .idle ∧
        (∀ z ∈ y.1, z.move.smooth 1 = true) ∧
        (backlog 0 x.2.rows).card ≤ 50 * y.1.countP (polling 1 (x.2.now + 300000)))) := by
    decide +kernel
  obtain ⟨⟨g, s⟩, hg, hs⟩ := (Option.any_eq_true _ _).1 hruns
  obtain ⟨hs, ht⟩ := Bool.and_eq_true_iff.1 hs
  obtain ⟨⟨h, t⟩, hh, ht⟩ := (Option.any_eq_true _ _).1 ht
  obtain ⟨hstopped, hidle, hnow, hbacklog⟩ := of_decide_eq_true hs
  obtain ⟨hrest, hsmooth, hrounds⟩ := of_decide_eq_true ht
  exact ⟨s, t, hstopped, hbacklog, outbox_drained (Machine.run_trace hg) hidle hnow
    (Machine.run_trace hh) hsmooth hrest hrounds⟩

end
end InvitationService.AnalyticsOutboxPublisher

import InvitationService.Publisher.Delivery

namespace InvitationService.AnalyticsOutboxPublisher

open Machine (Step)

def claiming (id : OutboxId) (x : Step State Move) : Bool :=
  (target x).any fun c => c.1 = id && (x.before.rows[id]?).any (claimable c.2)

def sending (id : OutboxId) (x : Step State Move) : Bool :=
  match x.move with
  | .act i .read => match x.before.phase i with
    | .publishing id' _ _ .reading => id' = id && (x.before.rows[id']?).isSome
    | _ => false
  | _ => false

def backoff (n : Nat) : Nat := min 300000 (2 ^ n * 1000)

/-- No row is sent before it was due when it was claimed, nor before the delay after its failure
number `n` is over. -/
structure BackedOff (h : List (Step State Move)) : Prop where
  claimed : ∀ (k l : Nat) x y id, k < l → h[k]? = some x → h[l]? = some y → claiming id x →
    sending id y →
    ∀ row ∈ x.before.rows[id]?, row.nextAttemptAt ≤ y.before.now
  failed : ∀ (k l : Nat) x y id n, k < l → h[k]? = some x → h[l]? = some y → failing id x →
    sending id y →
    (h.take (k + 1)).countP (failing id) = n → n < 10 → x.before.now + backoff n ≤ y.before.now

def Due (x : Step State Move) : Prop :=
  ∀ c ∈ target x, ∀ row ∈ x.before.rows[c.1]?, claimable c.2 row = true → row.nextAttemptAt ≤ c.2

instance (x : Step State Move) : Decidable (Due x) :=
  inferInstanceAs (Decidable (∀ c ∈ target x, _))

section

variable {s t : State} {i j : InstanceId} {id : OutboxId} {b : Nat} {x y : Step State Move}
  {h : List (Step State Move)}

theorem claiming_cases (hx : claiming id x = true) : ∃ n row, (id, n) ∈ target x ∧
    x.before.rows[id]? = some row ∧ claimable n row = true := by
  obtain ⟨⟨id', n⟩, hc, hok⟩ := (Option.any_eq_true _ _).1 hx
  obtain ⟨hid, hrow⟩ := Bool.and_eq_true_iff.1 hok
  obtain rfl := of_decide_eq_true hid
  obtain ⟨row, hrow, hclaim⟩ := (Option.any_eq_true _ _).1 hrow
  exact ⟨n, row, hc, hrow, hclaim⟩

theorem sending_cases (hx : sending id x = true) : ∃ i rest t,
    x.move = .act i .read ∧ x.before.phase i = .publishing id rest t .reading := by
  unfold sending at hx
  split at hx
  · split at hx
    · obtain ⟨hid, -⟩ := Bool.and_eq_true_iff.1 hx
      obtain rfl := of_decide_eq_true hid
      exact ⟨_, _, _, ‹_›, ‹_›⟩
    · cases hx
  · cases hx

theorem failing_cases (hm : step x.before x.move = some x.after) (hx : failing id x = true) :
    ∃ i rest t record e,
      x.after.phase i = .publishing id rest t (.undelivered record e x.before.now) := by
  obtain ⟨s, m, t⟩ := x
  cases m with
  | act i a =>
    simp only [failing] at hx
    dsimp only at hm
    simp only [step] at hm
    split at hx
    · rename_i hph
      obtain rfl := of_decide_eq_true hx
      rw [hph] at hm
      cases hm
      exact ⟨i, _, _, _, _, Function.update_self ..⟩
    · rename_i hph
      obtain rfl := of_decide_eq_true hx
      rw [hph] at hm
      cases hm
      exact ⟨i, _, _, _, _, Function.update_self ..⟩
    · cases hx
  | _ => cases hx

theorem now_le_step (hm : step x.before x.move = some x.after) : x.before.now ≤ x.after.now := by
  obtain ⟨s, m, t⟩ := x
  dsimp only at hm ⊢
  cases m with
  | clock now =>
    obtain ⟨hnow, rfl⟩ : s.now ≤ now ∧ { s with now } = t := by
      simpa [AnalyticsOutboxPublisher.step] using hm
    exact hnow
  | enqueue fact correlationId =>
    cases hm
    exact Nat.le_refl _
  | act i a =>
    obtain ⟨ph', rows', evs, -, rfl⟩ := step_act hm
    exact Nat.le_refl _

theorem now_le_run (hrun : publishers.Run s h t) : s.now ≤ t.now :=
  hrun.invariant (I := fun t => s.now ≤ t.now) (fun _ _ => trivial) (Nat.le_refl _)
    fun _ hs _ hm => hs.trans (now_le_step hm)

theorem failedData_nextAttemptAt {row record : AnalyticsOutbox} {e : String} {n : Nat}
    (h : record.attempts + 1 < 10) :
    (failedData record e n row).nextAttemptAt = n + backoff (record.attempts + 1) := by
  rw [failedData, if_neg (Nat.not_le.2 h)]
  rfl

inductive Deferred (b : Nat) (id : OutboxId) (s : State) : Prop
  | past : b ≤ s.now → Deferred b id s
  | recording {i : InstanceId} {rest : List OutboxId} {t n : Nat} {record : AnalyticsOutbox}
      {e : String} : s.phase i = .publishing id rest t (.undelivered record e n) →
      record.attempts + 1 < 10 → b ≤ n + backoff (record.attempts + 1) → Deferred b id s
  | waiting {row : AnalyticsOutbox} : (∀ i, ¬ s.Publishing i id) → s.rows[id]? = some row →
      b ≤ row.nextAttemptAt → Deferred b id s

theorem not_publishing_after {ph' : Phase} {rows' : List AnalyticsOutbox} {evs : List Event}
    (hs : ∀ j, ¬ s.Publishing j id)
    (hph : ∀ t stage, ph'.lease ≠ some (id, t, stage)) :
    ∀ j, ¬ (s.after i ph' rows' evs).Publishing j id := by
  rintro j ⟨t, stage, hl⟩
  by_cases hj : j = i
  · subst hj
    exact hph t stage (by simpa [State.after] using hl)
  · exact hs j ⟨t, stage, by simpa [State.after, hj] using hl⟩

theorem deferred_of_recording {i : InstanceId} {rest : List OutboxId} {lockedAt n : Nat}
    {record : AnalyticsOutbox} {e : String}
    (hph : x.before.phase i = .publishing id rest lockedAt (.undelivered record e n))
    (hlt : record.attempts + 1 < 10) (hb : b ≤ n + backoff (record.attempts + 1))
    (hs : Exclusive x.before) (hrec : Records x) (hm : step x.before x.move = some x.after) :
    Deferred b id x.after := by
  obtain ⟨s, m, t⟩ := x
  dsimp only at hph hs hm ⊢
  cases m with
  | clock now =>
    obtain ⟨-, rfl⟩ : s.now ≤ now ∧ { s with now } = t := by
      simpa [AnalyticsOutboxPublisher.step] using hm
    exact .recording hph hlt hb
  | enqueue fact correlationId =>
    cases hm
    exact .recording hph hlt hb
  | act j a =>
    obtain ⟨ph', rows', evs, ha, rfl⟩ := step_act hm
    by_cases hj : i = j
    · subst hj
      have hi : s.Recording i id := ⟨lockedAt, record, e, n, by rw [hph]; rfl⟩
      rw [hph] at ha
      cases ha with
      | poll => exact .recording (Function.update_self ..) hlt hb
      | go hnone _ _ => cases hnone
      | abandon ha _ =>
        obtain ⟨hstop, hfault⟩ := hrec i id hi
        rcases ha with rfl | ⟨e, rfl⟩
        · exact absurd rfl hstop
        · exact absurd rfl (hfault e)
      | failed =>
        obtain ⟨row, hrow, -⟩ := hs.held i id lockedAt _ (by rw [hph]; rfl)
        refine .waiting ?_ (?_ : _ = some (failedData record e n row)) ?_
        · rintro k ⟨t, stage, hl⟩
          by_cases hk : k = i
          · subst hk
            simp [State.after] at hl
          · have hl : (s.phase k).lease = some (id, t, stage) := by
              simpa [State.after, hk] using hl
            exact hk (hs.unique ⟨t, stage, hl⟩ hi.publishing)
        · simp [State.after, hrow]
        · rwa [failedData_nextAttemptAt hlt]
    · exact .recording ((Function.update_of_ne hj ..).trans hph) hlt hb

theorem deferred_of_waiting {row : AnalyticsOutbox} (hfree : ∀ i, ¬ x.before.Publishing i id)
    (hrow : x.before.rows[id]? = some row) (hb : b ≤ row.nextAttemptAt) (hs : Exclusive x.before)
    (hdue : Due x) (hm : step x.before x.move = some x.after) : Deferred b id x.after := by
  obtain ⟨s, m, t⟩ := x
  dsimp only at hfree hrow hs hm ⊢
  cases m with
  | clock now =>
    obtain ⟨-, rfl⟩ : s.now ≤ now ∧ { s with now } = t := by
      simpa [AnalyticsOutboxPublisher.step] using hm
    exact .waiting hfree hrow hb
  | enqueue fact correlationId =>
    cases hm
    refine .waiting hfree ?_ hb
    rw [List.getElem?_append_left (List.getElem?_eq_some_iff.1 hrow).1, hrow]
  | act i a =>
    obtain ⟨ph', rows', evs, ha, rfl⟩ := step_act hm
    generalize hph : s.phase i = ph at ha
    -- what is published is another row
    have hne : ∀ {id' t stage}, ph.lease = some (id', t, stage) → id' ≠ id := by
      rintro id' t stage hl rfl
      exact hfree i ⟨t, stage, by rw [hph, hl]⟩
    cases ha with
    | poll =>
      rw [State.after, ← hph, Function.update_eq_self]
      exact .waiting hfree hrow hb
    | @claim id' rest n row' hrow' hc =>
      by_cases hid : id' = id
      · subst hid
        have htarget : (id', n) ∈ target ⟨s, .act i .claim, s.after i
            (.publishing id' rest n .reading) (s.rows.modify id' (claimData i n))
            [.claimed i id']⟩ := by simp [target, hph]
        have hdue := hdue _ htarget row' hrow' hc
        obtain rfl : row = row' := Option.some.inj (hrow.symm.trans hrow')
        exact .past ((hb.trans hdue).trans (hs.past i id' rest n hph))
      · refine .waiting (not_publishing_after hfree ?_) (by simp [State.after, hid, hrow]) hb
        simp [Phase.lease, hid]
    | published | failed =>
      have hid := hne rfl
      refine .waiting (not_publishing_after hfree (by simp)) (by simp [State.after, hid, hrow]) hb
    | go _ hnone =>
      exact .waiting (not_publishing_after hfree (by simp [hnone])) hrow hb
    | abandon _ hl =>
      refine .waiting (not_publishing_after hfree ?_) hrow hb
      rcases hl with rfl | rfl <;> simp [Phase.lease]
    | missing => exact .waiting (not_publishing_after hfree (by simp [Phase.lease])) hrow hb
    | read | delivered | undelivered | fault =>
      have hid := hne rfl
      exact .waiting (not_publishing_after hfree (by simp [Phase.lease, hid])) hrow hb

theorem Deferred.step (hd : Deferred b id x.before) (hs : Exclusive x.before) (hdue : Due x)
    (hrec : Records x) (hm : step x.before x.move = some x.after) : Deferred b id x.after := by
  cases hd with
  | past hb => exact .past (hb.trans (now_le_step hm))
  | recording hph hlt hb => exact deferred_of_recording hph hlt hb hs hrec hm
  | waiting hfree hrow hb => exact deferred_of_waiting hfree hrow hb hs hdue hm

/-- What is asked of a step: a claim finds its row due and in no other hands, and a failed send is
recorded. -/
structure Orderly (x : Step State Move) : Prop where
  due : Due x
  alone : Alone x
  records : Records x

/-- What holds throughout an orderly run, the failed sends counted. -/
structure Audited (h : List (Step State Move)) (s : State) : Prop where
  leases : Leases s
  exclusive : Exclusive s
  tallied : Tallied (fun id => h.countP (failing id)) s

theorem audited_of_run (hrun : publishers.Run {} h s) (hx : ∀ x ∈ h, Orderly x) : Audited h s := by
  induction hrun with
  | nil =>
    exact ⟨.start, ⟨by simp [Phase.lease], by simp [Timed]⟩, by simp, by simp, fun _ _ => rfl⟩
  | @snoc h s t m _ hm ih =>
    have hs := ih fun x hxh => hx x (List.mem_append_left _ hxh)
    have hlast := hx ⟨s, m, t⟩ (by simp)
    refine ⟨hs.leases.step (x := ⟨s, m, t⟩) hs.exclusive.locked hm,
      hs.exclusive.step (x := ⟨s, m, t⟩) hlast.alone hm, ?_⟩
    have htally := hs.tallied.step (x := ⟨s, m, t⟩) hs.leases hs.exclusive hlast.records hm
    refine cast (congrArg (Tallied · t) (funext fun id => ?_)) htally
    rw [List.countP_append, List.countP_singleton, tally]

theorem deferred_of_failing (hs : Audited h x.before) (hx : Orderly x)
    (hm : step x.before x.move = some x.after) (hfail : failing id x = true)
    (hn : (h ++ [x]).countP (failing id) < 10) :
    Deferred (x.before.now + backoff ((h ++ [x]).countP (failing id))) id x.after := by
  obtain ⟨i, rest, t, record, e, hph⟩ := failing_cases hm hfail
  have hlease : (x.after.phase i).lease = some (id, t, .undelivered record e x.before.now) := by
    rw [hph]
    rfl
  have hex := hs.exclusive.step hx.alone hm
  obtain ⟨row, hrow, hby⟩ := hex.held i id t _ hlease
  have hread := ((hs.leases.step hs.exclusive.locked hm).current i id t _ row hlease
    hrow hby).attempts
    record rfl
  have hcount := (hs.tallied.step hs.leases hs.exclusive hx.records hm).recording id row hrow i
    ⟨t, record, e, _, hlease⟩
  have hn' : record.attempts + 1 = (h ++ [x]).countP (failing id) := by
    rw [hread, hcount, List.countP_append, List.countP_singleton, tally]
  exact .recording hph (hn' ▸ hn) (by rw [hn'])

theorem Deferred.le_of_sending (hd : Deferred b id y.before) (hs : Exclusive y.before)
    (hy : sending id y = true) : b ≤ y.before.now := by
  obtain ⟨j, rest, t, -, hph⟩ := sending_cases hy
  have hj : y.before.Publishing j id := ⟨t, _, by rw [hph]; rfl⟩
  cases hd with
  | past hb => exact hb
  | @recording i _ _ _ _ _ hi =>
    obtain rfl : i = j := hs.unique ⟨_, _, by rw [hi]; rfl⟩ hj
    rw [hph] at hi
    cases hi
  | waiting hfree => exact absurd hj (hfree j)

theorem deferred_of_run {g : List (Step State Move)} (hrun : publishers.Run {} h s)
    (hd : Deferred b id s) (hg : publishers.Run s g t)
    (hh : ∀ x ∈ h, Orderly x) (hx : ∀ x ∈ g, Orderly x) : Deferred b id t := by
  induction hg with
  | nil => exact hd
  | @snoc g u v m hg hm ih =>
    have hx' : ∀ x ∈ g, Orderly x := fun x hxg => hx x (List.mem_append_left _ hxg)
    have hlast := hx ⟨u, m, v⟩ (by simp)
    have hu := audited_of_run (hrun.trans hg) fun x hxm =>
      (List.mem_append.1 hxm).elim (hh x) (hx' x)
    exact (ih hx').step (x := ⟨u, m, v⟩) hu.exclusive hlast.due hlast.records hm

/-- As long as claims find their rows due, be it in other hands and whatever becomes of the failed
sends, nothing is sent before it was due when it was claimed. -/
theorem due_of_claiming (hrun : publishers.Run {} h s) (hdue : ∀ x ∈ h, Due x) {k l : Nat}
    (hkl : k < l) (hk : h[k]? = some x) (hl : h[l]? = some y) (hclaim : claiming id x = true) :
    ∀ row ∈ x.before.rows[id]?, row.nextAttemptAt ≤ y.before.now := by
  intro row hrow
  obtain ⟨hbefore, hm, -⟩ := hrun.at hk
  obtain ⟨n, row', htarget, hrow', hc⟩ := claiming_cases hclaim
  obtain rfl : row' = row := Option.some.inj (hrow'.symm.trans hrow)
  obtain ⟨i, rest, -, hph⟩ := target_cases htarget
  calc row'.nextAttemptAt
    _ ≤ n := hdue x (List.mem_of_getElem? hk) _ htarget row' hrow' hc
    _ ≤ x.before.now := timed_of_run hbefore i id rest n hph
    _ ≤ x.after.now := now_le_step hm
    _ ≤ y.before.now := now_le_run (hrun.between hkl hk hl)

/-- Rows are sent when they are due, as long as claims find them so and in no other hands and failed
sends are recorded. -/
theorem backed_off (hrun : publishers.Run {} h s) (hx : ∀ x ∈ h, Orderly x) : BackedOff h where
  claimed _ _ _ _ _ hkl hk hl hclaim _ := due_of_claiming hrun (fun z hz => (hx z hz).due)
    hkl hk hl hclaim
  failed k l x y id n hkl hk hl hfail hsend hn hlt := by
    obtain ⟨hbefore, hm, -⟩ := hrun.at hk
    have hbetween := hrun.between hkl hk hl
    have htake : h.take (k + 1) = h.take k ++ [x] := by rw [List.take_add_one, hk]; rfl
    have hbefore' : ∀ z ∈ h.take k, Orderly z := fun z hz => hx z (List.mem_of_mem_take hz)
    have hxk := hx x (List.mem_of_getElem? hk)
    rw [htake] at hn
    have hd := deferred_of_failing (audited_of_run hbefore hbefore') hxk hm hfail (hn ▸ hlt)
    rw [hn] at hd
    have hy := deferred_of_run (hbefore.snoc hm) hd hbetween
      (fun z hz => (List.mem_append.1 hz).elim (hbefore' z) fun hz => List.mem_singleton.1 hz ▸ hxk)
      fun z hz => hx z (List.mem_of_mem_drop (List.mem_of_mem_take hz))
    obtain ⟨hrun_y, -⟩ := hrun.at hl
    exact hy.le_of_sending (audited_of_run hrun_y fun z hz =>
      hx z (List.mem_of_mem_take hz)).exclusive
      hsend

theorem orderly_of_prompt (hrun : publishers.Run {} h s) (hprompt : ∀ x ∈ h, Prompt x)
    (hdue : ∀ x ∈ h, Due x) : ∀ x ∈ h, Orderly x := by
  intro x hx
  obtain ⟨-, g, hg, hr⟩ := hrun.of_mem hx
  have hs := ledger_of_run .start hr fun y hy => hprompt y (hg y hy)
  exact ⟨hdue x hx, (hprompt x hx).alone hs.exclusive hs.leases, (hprompt x hx).records⟩

theorem backed_off_retry : ∃ h s, publishers.Run {} h s ∧ BackedOff h ∧
    (h[5]?).any (failing 0) = true ∧ (h[11]?).any (sending 0) = true := by
  have hrun : (publishers.trace {} retry).any (fun x =>
      decide (∀ y ∈ x.1, PromptAmong [0, 1] y) && decide (∀ y ∈ x.1, Due y) &&
        ((x.1[5]?).any (failing 0) && (x.1[11]?).any (sending 0))) := by decide +kernel
  obtain ⟨⟨h, s⟩, hx, hok⟩ := (Option.any_eq_true _ _).1 hrun
  obtain ⟨hok, hsent⟩ := Bool.and_eq_true_iff.1 hok
  obtain ⟨hprompt, hdue⟩ := Bool.and_eq_true_iff.1 hok
  have hr := Machine.run_trace hx
  have hp := prompt_of_among hr (of_decide_eq_true hprompt)
  exact ⟨h, s, hr, backed_off hr (orderly_of_prompt hr hp (of_decide_eq_true hdue)),
    (Bool.and_eq_true_iff.1 hsent).1, (Bool.and_eq_true_iff.1 hsent).2⟩

def staleBatch : List Move :=
  .enqueue sampleFact none :: [.act 0 .poll, .act 0 (.select [0]), .act 1 .poll,
    .act 1 (.select [0])] ++
    (attempt 0 (.error "timeout")).drop 2 ++ [.act 1 .claim, .act 1 .read]

/-- It is sent again at once. -/
theorem not_backed_off : ¬ ∀ h s, publishers.Run {} h s → BackedOff h := by
  intro hall
  have hrun : (publishers.trace {} staleBatch).any (fun x => (x.1[7]?).any fun y =>
      (x.1[10]?).any fun z => failing 0 y && sending 0 z && decide (y.before.now = z.before.now) &&
        decide ((x.1.take 8).countP (failing 0) = 1)) := by decide +kernel
  obtain ⟨⟨h, s⟩, hx, hok⟩ := (Option.any_eq_true _ _).1 hrun
  obtain ⟨y, hy, hok⟩ := (Option.any_eq_true _ _).1 hok
  obtain ⟨z, hz, hok⟩ := (Option.any_eq_true _ _).1 hok
  simp only [Bool.and_eq_true, decide_eq_true_eq] at hok
  obtain ⟨⟨⟨hfail, hsend⟩, hnow⟩, hcount⟩ := hok
  have hle := (hall h s (Machine.run_trace hx)).failed 7 10 y z 0 1 (by decide) hy hz hfail hsend
    hcount (by decide)
  rw [hnow] at hle
  exact absurd hle (Nat.not_le.2 (Nat.lt_add_of_pos_right (by decide)))

end

end InvitationService.AnalyticsOutboxPublisher

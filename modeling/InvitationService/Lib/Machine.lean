import Mathlib.Data.List.Basic

/-- A machine: what each move makes of a state, if it is possible there. -/
structure Machine (σ μ : Type) where
  step : σ → μ → Option σ

namespace Machine

variable {σ μ : Type} {M : Machine σ μ} {s t u : σ}

/-- One move of a run. -/
structure Step (σ μ : Type) where
  before : σ
  move : μ
  after : σ

/-- The runs from `s`, oldest move first. -/
inductive Run (M : Machine σ μ) (s : σ) : List (Step σ μ) → σ → Prop
  | nil : Run M s [] s
  | snoc {h : List (Step σ μ)} {t u : σ} {m : μ} :
      Run M s h t → M.step t m = some u → Run M s (h ++ [⟨t, m, u⟩]) u

variable {g h : List (Step σ μ)}

theorem Run.trans (hs : M.Run s g t) (ht : M.Run t h u) : M.Run s (g ++ h) u := by
  induction ht with
  | nil => simpa using hs
  | snoc _ hm ih => rw [← List.append_assoc]; exact ih.snoc hm

def trace (M : Machine σ μ) (s : σ) : List μ → Option (List (Step σ μ) × σ)
  | [] => some ([], s)
  | m :: ms => do
    let t ← M.step s m
    let (h, u) ← M.trace t ms
    return (⟨s, m, t⟩ :: h, u)

theorem run_trace {ms : List μ} (hms : M.trace s ms = some (h, t)) : M.Run s h t := by
  induction ms generalizing s h with
  | nil =>
    cases hms
    exact .nil
  | cons m ms ih =>
    simp only [trace, Option.bind_eq_bind, Option.bind_eq_some_iff] at hms
    obtain ⟨u, hm, ⟨g, v⟩, hg, hms⟩ := hms
    cases hms
    exact (Run.nil.snoc hm).trans (ih hg)

/-- What every move keeps holds throughout a run; `P` is what the moves of the run are
known to satisfy. -/
theorem Run.invariant {I : σ → Prop} {P : Step σ μ → Prop} (hrun : M.Run s h t)
    (hP : ∀ x ∈ h, P x) (hs : I s)
    (hstep : ∀ x, I x.before → P x → M.step x.before x.move = some x.after → I x.after) : I t := by
  induction hrun with
  | nil => exact hs
  | @snoc h t u m _ hm ih =>
    exact hstep ⟨t, m, u⟩ (ih fun x hx => hP x (List.mem_append_left _ hx)) (hP _ (by simp)) hm

theorem Run.of_mem (hrun : M.Run s h t) {x : Step σ μ} (hx : x ∈ h) :
    M.step x.before x.move = some x.after ∧ ∃ g, (∀ y ∈ g, y ∈ h) ∧ M.Run s g x.before := by
  induction hrun with
  | nil => simp at hx
  | @snoc h t u m hr hm ih =>
    rcases List.mem_append.1 hx with hx | hx
    · obtain ⟨hm, g, hg, hr⟩ := ih hx
      exact ⟨hm, g, fun y hy => List.mem_append_left _ (hg y hy), hr⟩
    · obtain rfl := List.mem_singleton.1 hx
      exact ⟨hm, h, fun y hy => List.mem_append_left _ hy, hr⟩

theorem Run.split {x : Step σ μ} (hrun : M.Run s (g ++ x :: h) t) :
    M.Run s g x.before ∧ M.step x.before x.move = some x.after ∧ M.Run x.after h t := by
  generalize hk : g ++ x :: h = k at hrun
  induction hrun generalizing h with
  | nil => simp at hk
  | @snoc k t u m hr hm ih =>
    rcases List.eq_nil_or_concat h with rfl | ⟨h, y, rfl⟩
    · obtain ⟨rfl, hx⟩ := List.append_inj' hk rfl
      cases hx
      exact ⟨hr, hm, .nil⟩
    · rw [List.concat_eq_append, ← List.cons_append, ← List.append_assoc] at hk
      obtain ⟨rfl, hy⟩ := List.append_inj' hk rfl
      cases hy
      obtain ⟨hg, hx, ht⟩ := ih rfl
      rw [List.concat_eq_append]
      exact ⟨hg, hx, ht.snoc hm⟩

theorem Run.at (hrun : M.Run s h t) {k : Nat} {x : Step σ μ} (hk : h[k]? = some x) :
    M.Run s (h.take k) x.before ∧ M.step x.before x.move = some x.after ∧
      M.Run x.after (h.drop (k + 1)) t := by
  obtain ⟨hlt, rfl⟩ := List.getElem?_eq_some_iff.1 hk
  refine Run.split ?_
  rwa [← List.drop_eq_getElem_cons hlt, List.take_append_drop]

theorem Run.between (hrun : M.Run s h t) {k l : Nat} {x y : Step σ μ} (hkl : k < l)
    (hk : h[k]? = some x) (hl : h[l]? = some y) :
    M.Run x.after ((h.drop (k + 1)).take (l - (k + 1))) y.before := by
  obtain ⟨-, -, hafter⟩ := hrun.at hk
  have hy : (h.drop (k + 1))[l - (k + 1)]? = some y := by
    rw [List.getElem?_drop, Nat.add_sub_cancel' hkl, hl]
  exact (hafter.at hy).1

theorem Run.mem_after (hrun : M.Run s h t) (hne : h ≠ []) : ∃ x ∈ h, x.after = t := by
  cases hrun with
  | nil => exact absurd rfl hne
  | snoc _ _ => exact ⟨_, List.mem_append_right _ (List.mem_singleton.2 rfl), rfl⟩

end Machine

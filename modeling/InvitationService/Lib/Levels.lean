import Mathlib.Data.List.Basic
import Mathlib.Logic.Relation

open Relation (ReflTransGen TransGen)

/-! A breadth-first search that goes on with all the children it finds, those it has seen
before included: it ends because they cannot go down for ever. -/

namespace Levels

section

variable {α : Type} {child : α → α → Prop} {children : List α → List α} {queue : List α}

theorem rank_lt {rank : α → Nat} {a b : α} (hrank : ∀ a b, child a b → rank a < rank b)
    (h : TransGen child a b) : rank a < rank b := by
  induction h with
  | single h => exact hrank _ _ h
  | tail _ h ih => exact Nat.lt_trans ih (hrank _ _ h)

theorem descends_iff {b : α} (hchild : ∀ q b, b ∈ children q ↔ ∃ a ∈ q, child a b) :
    (∃ a ∈ queue, TransGen child a b) ↔
      b ∈ children queue ∨ ∃ a ∈ children queue, TransGen child a b := by
  constructor
  · rintro ⟨a, ha, h⟩
    obtain ⟨c, hac, hcb⟩ := TransGen.head'_iff.1 h
    have hc := (hchild queue c).2 ⟨a, ha, hac⟩
    rcases Relation.reflTransGen_iff_eq_or_transGen.1 hcb with rfl | hcb
    · exact .inl hc
    · exact .inr ⟨c, hc, hcb⟩
  · rintro (hb | ⟨c, hc, hcb⟩)
    · obtain ⟨a, ha, hab⟩ := (hchild queue b).1 hb
      exact ⟨a, ha, .single hab⟩
    · obtain ⟨a, ha, hac⟩ := (hchild queue c).1 hc
      exact ⟨a, ha, hcb.head hac⟩

end

variable {α : Type} [DecidableEq α]

def add (all ids : List α) : List α := all ++ ids.filter (· ∉ all)

@[simp] theorem add_nil (all : List α) : add all [] = all := by simp [add]

theorem mem_add {all ids : List α} {b : α} : b ∈ add all ids ↔ b ∈ all ∨ b ∈ ids := by
  by_cases hb : b ∈ all <;> simp [add, hb]

theorem nodup_add {all ids : List α} (hall : all.Nodup) (hids : ids.Nodup) :
    (add all ids).Nodup := by
  refine List.nodup_append.2 ⟨hall, hids.filter _, fun a ha b hb => ?_⟩
  rintro rfl
  simpa [ha] using List.mem_filter.1 hb

/-- The loop with `all` found and `queue` to look below ends after `n` rounds with `result`. -/
inductive Loop (children : List α → List α) : Nat → List α → List α → List α → Prop
  | done {all : List α} : Loop children 0 all [] all
  | round {n : Nat} {all queue result : List α} : queue ≠ [] →
      Loop children n (add all (children queue)) (children queue) result →
      Loop children (n + 1) all queue result

variable {children : List α → List α} {child : α → α → Prop} {n m : Nat}
  {all queue result result' : List α}

theorem Loop.unique (h : Loop children n all queue result)
    (h' : Loop children m all queue result') :
    n = m ∧ result = result' := by
  induction h generalizing m with
  | done =>
    cases h' with
    | done => exact ⟨rfl, rfl⟩
    | round hne _ => exact absurd rfl hne
  | round hne _ ih =>
    cases h' with
    | done => exact absurd rfl hne
    | round _ h' =>
      obtain ⟨rfl, rfl⟩ := ih h'
      exact ⟨rfl, rfl⟩

theorem Loop.nodup (h : Loop children n all queue result) (hchildren : ∀ q, (children q).Nodup)
    (hall : all.Nodup) : result.Nodup := by
  induction h with
  | done => exact hall
  | round _ _ ih => exact ih (nodup_add hall (hchildren _))

theorem Loop.mem_iff (h : Loop children n all queue result)
    (hchild : ∀ q b, b ∈ children q ↔ ∃ a ∈ q, child a b) {b : α} :
    b ∈ result ↔ b ∈ all ∨ ∃ a ∈ queue, TransGen child a b := by
  induction h with
  | done => simp
  | round _ _ ih => rw [ih, mem_add, or_assoc, ← descends_iff hchild]

/-- A child ranks above its parents, and below `bound`: one round for each rank, and one more
that finds nothing. -/
theorem exists_loop {rank : α → Nat} {bound k : Nat}
    (hchild : ∀ q b, b ∈ children q ↔ ∃ a ∈ q, child a b)
    (hrank : ∀ a b, child a b → rank a < rank b) (hbound : ∀ a b, child a b → rank b < bound)
    (hqueue : ∀ a ∈ queue, k ≤ rank a) (hm : bound ≤ m + k) :
    ∃ n result, n ≤ m + 1 ∧ Loop children n all queue result := by
  induction m generalizing all queue k with
  | zero =>
    by_cases hq : queue = []
    · subst hq
      exact ⟨0, all, Nat.zero_le _, .done⟩
    · have hnone : children queue = [] := List.eq_nil_iff_forall_not_mem.2 fun b hb => by
        obtain ⟨a, ha, hab⟩ := (hchild queue b).1 hb
        have := hqueue a ha
        have := hrank a b hab
        have := hbound a b hab
        omega
      refine ⟨1, all, Nat.le_refl _, .round hq ?_⟩
      rw [hnone, add_nil]
      exact .done
  | succ m ih =>
    by_cases hq : queue = []
    · subst hq
      exact ⟨0, all, Nat.zero_le _, .done⟩
    · have hbelow : ∀ b ∈ children queue, k + 1 ≤ rank b := fun b hb => by
        obtain ⟨a, ha, hab⟩ := (hchild queue b).1 hb
        exact Nat.lt_of_le_of_lt (hqueue a ha) (hrank a b hab)
      have hrest : ∃ n result, n ≤ m + 1 ∧
          Loop children n (add all (children queue)) (children queue) result :=
        ih hbelow (by omega)
      obtain ⟨n, result, hn, hloop⟩ := hrest
      exact ⟨n + 1, result, Nat.succ_le_succ hn, .round hq hloop⟩

end Levels

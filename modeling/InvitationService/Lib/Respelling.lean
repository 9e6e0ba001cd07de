import Mathlib.Data.List.Basic

/-! Texts that differ in how they spell what stands between certain marks: every other
letter may become several, none of them a mark. -/

namespace Respelling

inductive Respells {α : Type} (mark : α → Prop) : List α → List α → Prop
  | nil : Respells mark [] []
  | keep : mark c → Respells mark l l' → Respells mark (c :: l) (c :: l')
  | spell : ¬ mark c → a ≠ [] → (∀ d ∈ a, ¬ mark d) → Respells mark l l' →
      Respells mark (c :: l) (a ++ l')

namespace Respells

variable {α : Type} {mark : α → Prop} {l l' a b a' b' : List α} {c s : α}

theorem eq_nil_iff (h : Respells mark l l') : l' = [] ↔ l = [] := by
  cases h with
  | nil => simp
  | keep hc h => simp
  | spell hc ha hm h => simp [ha]

theorem mem_iff (h : Respells mark l l') (hs : mark s) : s ∈ l' ↔ s ∈ l := by
  induction h with
  | nil => rfl
  | keep hc h ih => simp [ih]
  | @spell c a l l' hc ha hm h ih =>
    have hsa : s ∉ a := fun hsa => hm s hsa hs
    have hsc : s ≠ c := fun hsc => hc (hsc ▸ hs)
    simp [ih, hsa, hsc]

theorem cut (h : Respells mark l l') (hs : mark s) (hl : l = a ++ s :: b) :
    ∃ a' b', l' = a' ++ s :: b' ∧ Respells mark a a' ∧ Respells mark b b' := by
  induction h generalizing a with
  | nil => simp at hl
  | @keep c l l' hc h ih =>
    cases a with
    | nil =>
      cases hl
      exact ⟨[], l', rfl, .nil, h⟩
    | cons d a =>
      cases hl
      obtain ⟨a', b', rfl, ha, hb⟩ := ih rfl
      exact ⟨c :: a', b', rfl, .keep hc ha, hb⟩
  | @spell c m l l' hc hm hmark h ih =>
    cases a with
    | nil =>
      cases hl
      exact absurd hs hc
    | cons d a =>
      cases hl
      obtain ⟨a', b', rfl, ha, hb⟩ := ih rfl
      exact ⟨m ++ a', b', by simp, .spell hc hm hmark ha, hb⟩

theorem cut_back (h : Respells mark l l') (hs : mark s) (hl : l' = a' ++ s :: b') :
    ∃ a b, l = a ++ s :: b ∧ Respells mark a a' ∧ Respells mark b b' := by
  induction h generalizing a' with
  | nil => simp at hl
  | @keep c l l' hc h ih =>
    cases a' with
    | nil =>
      cases hl
      exact ⟨[], l, rfl, .nil, h⟩
    | cons d a' =>
      cases hl
      obtain ⟨a, b, rfl, ha, hb⟩ := ih rfl
      exact ⟨c :: a, b, rfl, .keep hc ha, hb⟩
  | @spell c m l l' hc hm hmark h ih =>
    -- the mark stands behind the letters `c` has become
    rcases List.append_eq_append_iff.1 hl with ⟨m', rfl, hl'⟩ | ⟨m', rfl, hl'⟩
    · obtain ⟨a, b, rfl, ha, hb⟩ := ih hl'
      exact ⟨c :: a, b, rfl, .spell hc hm hmark ha, hb⟩
    · cases m' with
      | nil =>
        have hrest : l' = [] ++ s :: b' := by simpa using hl'.symm
        obtain ⟨a, b, rfl, ha, hb⟩ := ih hrest
        have ha := Respells.spell hc hm hmark ha
        exact ⟨c :: a, b, rfl, by simpa using ha, hb⟩
      | cons d m' =>
        cases hl'
        exact absurd hs (hmark s (by simp))

theorem of_map {f : α → α} (hkeep : ∀ c, mark c → f c = c) (hspell : ∀ c, mark (f c) → mark c)
    (l : List α) : Respells mark l (l.map f) := by
  induction l with
  | nil => exact .nil
  | cons c l ih =>
    by_cases hc : mark c
    · rw [List.map_cons, hkeep c hc]
      exact .keep hc ih
    · exact .spell hc (a := [f c]) (by simp) (by simpa using fun h => hc (hspell c h)) ih

end Respells
end Respelling

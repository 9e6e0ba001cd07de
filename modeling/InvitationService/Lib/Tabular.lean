import Mathlib.Data.List.Induction
import Mathlib.Data.List.ReduceOption

/-! Rows with gaps, and records built by assigning to keys. -/

namespace Tabular

variable {κ α : Type} [DecidableEq κ] {record : List (κ × α)} {k key : κ} {v value : α}

/-- An assignment keeps the place of a key that is there. -/
def assign (record : List (κ × α)) (key : κ) (value : α) : List (κ × α) :=
  if record.any (·.1 = key) then record.map fun e => if e.1 = key then (key, value) else e
  else record ++ [(key, value)]

theorem mem_assign :
    (k, v) ∈ assign record key value ↔ (k = key ∧ v = value) ∨ (k ≠ key ∧ (k, v) ∈ record) := by
  unfold assign
  split
  next hany =>
    obtain ⟨e, he, hkey⟩ := List.any_eq_true.1 hany
    rw [List.mem_map]
    constructor
    · rintro ⟨e', he', heq⟩
      by_cases hkey' : e'.1 = key
      · rw [if_pos hkey'] at heq
        cases heq
        exact .inl ⟨rfl, rfl⟩
      · rw [if_neg hkey'] at heq
        subst heq
        exact .inr ⟨hkey', he'⟩
    · rintro (⟨rfl, rfl⟩ | ⟨hne, hmem⟩)
      · exact ⟨e, he, if_pos (of_decide_eq_true hkey)⟩
      · exact ⟨(k, v), hmem, if_neg hne⟩
  next hany =>
    have hnew : ∀ e ∈ record, e.1 ≠ key := fun e he hkey =>
      hany (List.any_eq_true.2 ⟨e, he, decide_eq_true hkey⟩)
    rw [List.mem_append, List.mem_singleton, Prod.mk.injEq]
    constructor
    · rintro (hmem | heq)
      · exact .inr ⟨hnew _ hmem, hmem⟩
      · exact .inl heq
    · rintro (heq | ⟨-, hmem⟩)
      · exact .inr heq
      · exact .inl hmem

def assignAll (entries : List (κ × α)) : List (κ × α) :=
  entries.foldl (fun record e => assign record e.1 e.2) []

theorem mem_assignAll {entries : List (κ × α)} :
    (k, v) ∈ assignAll entries ↔ (entries.filter (·.1 = k)).getLast?.map (·.2) = some v := by
  induction entries using List.reverseRecOn with
  | nil => simp [assignAll]
  | append_singleton entries e ih =>
    have hstep : assignAll (entries ++ [e]) = assign (assignAll entries) e.1 e.2 := by
      simp [assignAll]
    rw [hstep, mem_assign, ih, List.filter_append]
    by_cases hk : e.1 = k
    · simp [hk, eq_comm]
    · simp [hk, Ne.symm hk]

variable {row : List (Option α)} {i j : Nat} {x : α}

theorem exists_of_reduceOption_getElem? (h : row.reduceOption[i]? = some x) :
    ∃ j, row[j]? = some (some x) ∧ (j = i ∨ i < j ∧ ∃ g < j, row[g]? = some none) := by
  induction row generalizing i with
  | nil => simp at h
  | cons cell row ih =>
    cases cell with
    | none =>
      rw [List.reduceOption_cons_of_none] at h
      obtain ⟨j, hj, hij⟩ := ih h
      exact ⟨j + 1, by simpa using hj, .inr ⟨by omega, 0, by omega, rfl⟩⟩
    | some y =>
      rw [List.reduceOption_cons_of_some] at h
      cases i with
      | zero =>
        refine ⟨0, ?_, .inl rfl⟩
        simpa using h
      | succ i =>
        obtain ⟨j, hj, hij⟩ := ih (by simpa using h)
        refine ⟨j + 1, by simpa using hj, ?_⟩
        rcases hij with rfl | ⟨hlt, g, hg, hgap⟩
        · exact .inl rfl
        · exact .inr ⟨by omega, g + 1, by omega, by simpa using hgap⟩

theorem lt_of_reduceOption_getElem? (h : row.reduceOption[i]? = some x) {g : Nat}
    (hgap : row[g]? = some none) (hg : g < i) :
    ∃ j, i < j ∧ row[j]? = some (some x) := by
  induction row generalizing i g with
  | nil => simp at h
  | cons cell row ih =>
    cases cell with
    | none =>
      rw [List.reduceOption_cons_of_none] at h
      obtain ⟨j, hj, hij⟩ := exists_of_reduceOption_getElem? h
      exact ⟨j + 1, by omega, by simpa using hj⟩
    | some y =>
      rw [List.reduceOption_cons_of_some] at h
      cases g with
      | zero => simp at hgap
      | succ g =>
        cases i with
        | zero => omega
        | succ i =>
          obtain ⟨j, hij, hj⟩ := ih (by simpa using h) (by simpa using hgap) (by omega)
          exact ⟨j + 1, by omega, by simpa using hj⟩

theorem reduceOption_getElem?_of_no_gap (h : row[i]? = some (some x))
    (hgap : ∀ g < i, row[g]? ≠ some none) : row.reduceOption[i]? = some x := by
  induction row generalizing i with
  | nil => simp at h
  | cons cell row ih =>
    cases i with
    | zero =>
      have hcell : cell = some x := by simpa using h
      rw [hcell, List.reduceOption_cons_of_some, List.getElem?_cons_zero]
    | succ i =>
      cases cell with
      | none => exact absurd rfl (hgap 0 (by omega))
      | some y =>
        rw [List.reduceOption_cons_of_some, List.getElem?_cons_succ]
        refine ih (by simpa using h) fun g hg hnone => ?_
        exact hgap (g + 1) (by omega) (by simpa using hnone)

end Tabular

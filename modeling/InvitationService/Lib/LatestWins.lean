import Mathlib.Data.List.Induction
import Mathlib.Data.List.Sort

/-! A register that keeps what carries the greatest stamp. -/

namespace LatestWins

variable {α β τ : Type} [LinearOrder τ] {stamp : α → τ} {l l' : List α} {o o' : Option α}

def IsLatest (stamp : α → τ) (l : List α) : Option α → Prop
  | none => l = []
  | some x => x ∈ l ∧ ∀ y ∈ l, stamp y ≤ stamp x

theorem IsLatest.skip {x y : α} (h : IsLatest stamp l (some x)) (hy : stamp y < stamp x) :
    IsLatest stamp (l ++ [y]) (some x) := by
  refine ⟨List.mem_append_left _ h.1, fun z hz => ?_⟩
  rcases List.mem_append.1 hz with hz | hz
  · exact h.2 z hz
  · rw [List.mem_singleton.1 hz]
    exact hy.le

theorem IsLatest.replace {y : α} (h : IsLatest stamp l o)
    (hy : ∀ x, o = some x → stamp x ≤ stamp y) : IsLatest stamp (l ++ [y]) (some y) := by
  refine ⟨by simp, fun z hz => ?_⟩
  rcases List.mem_append.1 hz with hz | hz
  · cases o with
    | none => rw [h] at hz; cases hz
    | some x => exact (h.2 z hz).trans (hy x rfl)
  · rw [List.mem_singleton.1 hz]

theorem IsLatest.eq_none_iff (h : IsLatest stamp l o) : o = none ↔ l = [] := by
  cases o with
  | none => exact ⟨fun _ => h, fun _ => rfl⟩
  | some x => exact ⟨nofun, fun hl => absurd h.1 (by simp [hl])⟩

/-- Neither order nor duplication matters. -/
theorem IsLatest.unique (h : IsLatest stamp l o) (h' : IsLatest stamp l' o')
    (hl : ∀ x, x ∈ l ↔ x ∈ l') (hinj : ∀ x ∈ l, ∀ y ∈ l, stamp x = stamp y → x = y) : o = o' := by
  cases o with
  | none =>
    have hl' : l' = [] := List.eq_nil_iff_forall_not_mem.2 fun x hx => by
      have := (hl x).2 hx
      rw [show l = [] from h] at this
      cases this
    exact (h'.eq_none_iff.2 hl').symm
  | some x =>
    cases o' with
    | none =>
      have := (hl x).1 h.1
      rw [show l' = [] from h'] at this
      cases this
    | some y =>
      have hy := (hl y).2 h'.1
      have hle := h'.2 x ((hl x).1 h.1)
      rw [hinj x h.1 y hy (le_antisymm hle (h.2 y hy))]

theorem exists_isLatest (stamp : α → τ) (l : List α) : ∃ o, IsLatest stamp l o := by
  induction l using List.reverseRecOn with
  | nil => exact ⟨none, rfl⟩
  | append_singleton l y ih =>
    obtain ⟨o, ho⟩ := ih
    cases o with
    | none => exact ⟨some y, ho.replace nofun⟩
    | some x =>
      rcases lt_or_ge (stamp y) (stamp x) with hlt | hle
      · exact ⟨some x, ho.skip hlt⟩
      · exact ⟨some y, ho.replace fun _ hx => by cases hx; exact hle⟩

theorem isLatest_getLast? (h : l.Pairwise (stamp · ≤ stamp ·)) :
    IsLatest stamp l l.getLast? := by
  induction l using List.reverseRecOn with
  | nil => rfl
  | append_singleton l y ih =>
    rw [List.pairwise_append] at h
    rw [List.getLast?_concat]
    refine (ih h.1).replace fun x hx => h.2.2 x ?_ y (List.mem_singleton_self y)
    exact List.mem_of_getLast? hx

theorem foldl_overwrite (f : α → Option β) (b : β) (l : List α) :
    l.foldl (fun b x => (f x).getD b) b =
      ((l.filter fun x => (f x).isSome).getLast?.bind f).getD b := by
  induction l using List.reverseRecOn with
  | nil => rfl
  | append_singleton l y ih =>
    rw [List.foldl_concat, ih, List.filter_append]
    cases hy : f y with
    | none => simp [hy]
    | some c => simp [hy]

theorem IsLatest.foldl_insertionSort {f : α → Option β} (b : β)
    (h : IsLatest stamp (l.filter fun x => (f x).isSome) o)
    (hinj : ∀ x ∈ l, ∀ y ∈ l, stamp x = stamp y → x = y) :
    (l.insertionSort (stamp · ≤ stamp ·)).foldl (fun b x => (f x).getD b) b =
      (o.bind f).getD b := by
  have : Std.Total (α := α) (stamp · ≤ stamp ·) := ⟨fun x y => le_total (stamp x) (stamp y)⟩
  have : IsTrans α (stamp · ≤ stamp ·) := ⟨fun _ _ _ hxy hyz => le_trans hxy hyz⟩
  have hs := (List.pairwise_insertionSort (stamp · ≤ stamp ·) l).filter fun x => (f x).isSome
  rw [foldl_overwrite, ← h.unique (isLatest_getLast? hs) (fun x => by simp) fun x hx y hy =>
    hinj x (List.mem_of_mem_filter hx) y (List.mem_of_mem_filter hy)]

/-- `x` stands in `l`, and everything else there carries a smaller stamp. -/
def IsStrictlyLatest (stamp : α → τ) (l : List α) (x : α) : Prop :=
  ∃ rest, l.Perm (x :: rest) ∧ ∀ y ∈ rest, stamp y < stamp x

theorem IsStrictlyLatest.perm {x : α} (h : IsStrictlyLatest stamp l x) (hl : l.Perm l') :
    IsStrictlyLatest stamp l' x := by
  obtain ⟨rest, hrest, hlt⟩ := h
  exact ⟨rest, hl.symm.trans hrest, hlt⟩

theorem isStrictlyLatest_congr {x : α} (hl : l.Perm l') :
    IsStrictlyLatest stamp l x ↔ IsStrictlyLatest stamp l' x :=
  ⟨fun h => h.perm hl, fun h => h.perm hl.symm⟩

theorem isStrictlyLatest_cons_cons {x y z : α}
    (h : (y :: z :: l).Pairwise fun a b => stamp b ≤ stamp a) :
    IsStrictlyLatest stamp (y :: z :: l) x ↔ stamp y ≠ stamp z ∧ y = x := by
  obtain ⟨hy, hz⟩ := List.pairwise_cons.1 h
  constructor
  · intro hx
    obtain ⟨rest, hrest, hlt⟩ := hx
    have hyx : y = x := by
      rcases List.mem_cons.1 (hrest.mem_iff.1 (List.mem_cons_self ..)) with hyx | hyrest
      · exact hyx
      · rcases List.mem_cons.1 (hrest.mem_iff.2 (List.mem_cons_self ..)) with hxy | hxl
        · exact hxy.symm
        · exact absurd (hlt y hyrest) (not_lt.2 (hy x hxl))
    subst hyx
    have hzrest : z ∈ rest := hrest.cons_inv.mem_iff.1 (List.mem_cons_self ..)
    exact ⟨(hlt z hzrest).ne', rfl⟩
  · intro hx
    obtain ⟨hne, rfl⟩ := hx
    have hzy : stamp z < stamp y := lt_of_le_of_ne (hy z (List.mem_cons_self ..)) hne.symm
    refine ⟨z :: l, List.Perm.refl _, fun a ha => ?_⟩
    rcases List.mem_cons.1 ha with rfl | hal
    · exact hzy
    · exact ((List.pairwise_cons.1 hz).1 a hal).trans_lt hzy

theorem not_isStrictlyLatest_of_tie {x y z : α} (hxy : stamp x = stamp y)
    (hmax : ∀ a ∈ l, stamp a ≤ stamp x) : ¬ IsStrictlyLatest stamp (x :: y :: l) z := by
  rintro ⟨rest, hrest, hlt⟩
  have hz : stamp z ≤ stamp x := by
    rcases List.mem_cons.1 (hrest.mem_iff.2 (List.mem_cons_self ..)) with rfl | hz
    · exact le_rfl
    · rcases List.mem_cons.1 hz with rfl | hz
      · exact hxy.ge
      · exact hmax z hz
  rcases List.mem_cons.1 (hrest.mem_iff.1 (List.mem_cons_self ..)) with rfl | hx
  · have hy : y ∈ rest := hrest.cons_inv.mem_iff.1 (List.mem_cons_self ..)
    exact absurd (hlt y hy) (not_lt.2 hxy.le)
  · exact absurd (hlt x hx) (not_lt.2 hz)

end LatestWins

import Mathlib.Data.List.Basic

/-! The elements of a list whose key comes up for the first time, and the others. -/

namespace FirstSeen

variable {α κ ι : Type} {f : α → κ} {taken : List κ} {taken' : List ι} {l pre : List α}
  {a b : α}

/-- `P` holds of each element and those before it. -/
def Throughout (P : List α → α → Prop) (l : List α) : Prop :=
  ∀ pre a post, l = pre ++ a :: post → P pre a

theorem throughout_nil (P : List α → α → Prop) : Throughout P [] := fun pre a post h => by
  simp at h

theorem throughout_cons {P : List α → α → Prop} :
    Throughout P (a :: l) ↔ P [] a ∧ Throughout (fun pre b => P (a :: pre) b) l := by
  constructor
  · intro h
    refine ⟨h [] a l rfl, fun pre b post hl => h (a :: pre) b post ?_⟩
    rw [hl]
    rfl
  · rintro ⟨ha, hl⟩ pre b post heq
    cases pre with
    | nil =>
      cases heq
      exact ha
    | cons c pre =>
      cases heq
      exact hl pre b post rfl

instance Throughout.decidable (P : List α → α → Prop) [∀ pre a, Decidable (P pre a)] :
    (l : List α) → Decidable (Throughout P l)
  | [] => isTrue (throughout_nil P)
  | a :: l =>
    have := Throughout.decidable (fun pre b => P (a :: pre) b) l
    decidable_of_iff _ throughout_cons.symm

theorem throughout_congr {P Q : List α → α → Prop} (h : ∀ pre a, P pre a ↔ Q pre a) :
    Throughout P l ↔ Throughout Q l :=
  forall_congr' fun pre => forall_congr' fun a => forall_congr' fun _ =>
    forall_congr' fun _ => h pre a

theorem throughout_map {β : Type} (g : α → β) (P : List β → β → Prop) :
    Throughout (fun pre a => P (pre.map g) (g a)) l ↔ Throughout P (l.map g) := by
  induction l generalizing P with
  | nil => simp [throughout_nil]
  | cons a l ih =>
    rw [List.map_cons, throughout_cons, throughout_cons, ← ih]
    rfl

/-- The key of `a` is taken, or it is that of an earlier element. -/
def Seen (f : α → κ) (taken : List κ) (pre : List α) (a : α) : Prop :=
  f a ∈ taken ∨ ∃ b ∈ pre, f b = f a

theorem seen_nil : Seen f taken [] a ↔ f a ∈ taken := by simp [Seen]

theorem seen_cons : Seen f taken (b :: pre) a ↔ Seen f (f b :: taken) pre a := by
  simp only [Seen, List.mem_cons, exists_eq_or_imp]
  rw [eq_comm, or_left_comm, or_assoc]

theorem mem_cons_of_taken (h : f a ∈ taken) (k : κ) : k ∈ taken ↔ k ∈ f a :: taken := by
  simp only [List.mem_cons]
  exact ⟨.inr, fun hk => hk.elim (fun hk => hk ▸ h) id⟩

theorem taken_cons {g : κ → ι} (hT : ∀ k, k ∈ taken' ↔ ∃ t ∈ taken, g t = k) (k : ι) :
    k ∈ g (f a) :: taken' ↔ ∃ t ∈ f a :: taken, g t = k := by
  simp [hT, eq_comm]

theorem seen_map {β : Type} {g : β → α} {pre : List β} {b : β} :
    Seen f taken (pre.map g) (g b) ↔ Seen (f ∘ g) taken pre b := by
  simp [Seen]

variable [DecidableEq κ] [DecidableEq ι]

instance : Decidable (Seen f taken pre a) :=
  inferInstanceAs (Decidable (f a ∈ taken ∨ ∃ b ∈ pre, f b = f a))

def firsts (f : α → κ) : List κ → List α → List α
  | _, [] => []
  | taken, a :: l => if f a ∈ taken then firsts f taken l else a :: firsts f (f a :: taken) l

def repeats (f : α → κ) : List κ → List α → List α
  | _, [] => []
  | taken, a :: l => if f a ∈ taken then a :: repeats f taken l else repeats f (f a :: taken) l

theorem firsts_congr {taken₂ : List κ} (h : ∀ k, k ∈ taken ↔ k ∈ taken₂) :
    firsts f taken l = firsts f taken₂ l := by
  induction l generalizing taken taken₂ with
  | nil => rfl
  | cons a l ih =>
    simp only [firsts, h]
    split
    · exact ih h
    · exact congrArg (a :: ·) (ih fun k => by simp only [List.mem_cons, h])

theorem repeats_congr {taken₂ : List κ} (h : ∀ k, k ∈ taken ↔ k ∈ taken₂) :
    repeats f taken l = repeats f taken₂ l := by
  induction l generalizing taken taken₂ with
  | nil => rfl
  | cons a l ih =>
    simp only [repeats, h]
    split
    · rw [ih h]
    · exact ih fun k => by simp [h]

theorem firsts_drop {taken₂ : List κ} (n : Nat)
    (h : ∀ k, k ∈ taken₂ ↔ k ∈ taken ∨ k ∈ ((firsts f taken l).take n).map f) :
    firsts f taken₂ l = (firsts f taken l).drop n := by
  induction l generalizing n taken taken₂ with
  | nil => simp [firsts]
  | cons a l ih =>
    by_cases ha : f a ∈ taken
    · simp only [firsts, if_pos ha] at h ⊢
      rw [if_pos ((h _).2 (.inl ha)), ih n h]
    · simp only [firsts, if_neg ha] at h ⊢
      cases n with
      | zero =>
        have hsame : ∀ k, k ∈ taken₂ ↔ k ∈ taken := fun k => (h k).trans (by simp)
        rw [if_neg fun ha₂ => ha ((hsame _).1 ha₂), List.drop_zero]
        exact congrArg (a :: ·) (firsts_congr fun k => by simp only [List.mem_cons, hsame])
      | succ n =>
        rw [List.take_succ_cons, List.map_cons] at h
        rw [if_pos ((h _).2 (.inr List.mem_cons_self)), List.drop_succ_cons]
        apply ih
        intro k
        rw [h, List.mem_cons, List.mem_cons]
        tauto

theorem firsts_cons (f : α → κ) (taken : List κ) (a : α) (l : List α) :
    firsts f taken (a :: l) =
      if f a ∈ taken then firsts f (f a :: taken) l else a :: firsts f (f a :: taken) l := by
  rw [firsts]
  split
  next h => exact firsts_congr (mem_cons_of_taken h)
  next => rfl

theorem repeats_cons (f : α → κ) (taken : List κ) (a : α) (l : List α) :
    repeats f taken (a :: l) =
      if f a ∈ taken then a :: repeats f (f a :: taken) l else repeats f (f a :: taken) l := by
  rw [repeats]
  split
  next h => rw [repeats_congr (mem_cons_of_taken h)]
  next => rfl

theorem repeats_map {β : Type} (g : β → α) (taken : List κ) (l : List β) :
    repeats f taken (l.map g) = (repeats (f ∘ g) taken l).map g := by
  induction l generalizing taken with
  | nil => rfl
  | cons b l ih =>
    rw [List.map_cons, repeats, repeats, ih, ih, Function.comp_apply]
    split <;> rfl

theorem length_firsts_add_length_repeats (f : α → κ) (taken : List κ) (l : List α) :
    (firsts f taken l).length + (repeats f taken l).length = l.length := by
  induction l generalizing taken with
  | nil => rfl
  | cons a l ih =>
    rw [firsts, repeats]
    split
    · have := ih taken
      simp only [List.length_cons]
      omega
    · have := ih (f a :: taken)
      simp only [List.length_cons]
      omega

theorem repeats_sublist (f : α → κ) (taken : List κ) (l : List α) :
    (repeats f taken l).Sublist l := by
  induction l generalizing taken with
  | nil => exact .slnil
  | cons a l ih =>
    rw [repeats]
    split
    · exact (ih taken).cons_cons a
    · exact (ih _).cons a

theorem forall_mem_firsts {P : α → Prop} :
    (∀ a ∈ firsts f taken l, P a) ↔ Throughout (fun pre a => ¬ Seen f taken pre a → P a) l := by
  induction l generalizing taken with
  | nil => simp [firsts, throughout_nil]
  | cons a l ih =>
    rw [firsts_cons, throughout_cons, seen_nil, throughout_congr fun pre b => by rw [seen_cons],
      ← ih]
    split
    next h => simp [h]
    next h => simp [h]

section Coarser

variable {g : κ → ι}

theorem firsts_comp_sublist (hT : ∀ k, k ∈ taken' ↔ ∃ t ∈ taken, g t = k) :
    (firsts (g ∘ f) taken' l).Sublist (firsts f taken l) := by
  induction l generalizing taken taken' with
  | nil => exact .slnil
  | cons a l ih =>
    have ih := ih (taken_cons (f := f) (a := a) hT)
    rw [firsts_cons, firsts_cons]
    by_cases hf : f a ∈ taken
    · have hg : (g ∘ f) a ∈ taken' := (hT _).2 ⟨f a, hf, rfl⟩
      rw [if_pos hf, if_pos hg]
      exact ih
    · rw [if_neg hf]
      split
      · exact ih.cons a
      · exact ih.cons_cons a

/-- A coarser key keeps the same elements where it takes none for another. -/
theorem firsts_comp_eq_iff (hT : ∀ k, k ∈ taken' ↔ ∃ t ∈ taken, g t = k) :
    firsts (g ∘ f) taken' l = firsts f taken l ↔
      Throughout (fun pre a => Seen (g ∘ f) taken' pre a → Seen f taken pre a) l := by
  induction l generalizing taken taken' with
  | nil => simp [firsts, throughout_nil]
  | cons a l ih =>
    have hT' := taken_cons (f := f) (a := a) hT
    have ih := ih hT'
    rw [firsts_cons, firsts_cons, throughout_cons, seen_nil, seen_nil,
      throughout_congr fun pre b => by rw [seen_cons, seen_cons], Function.comp_apply, ← ih]
    by_cases hf : f a ∈ taken
    · have hg : g (f a) ∈ taken' := (hT _).2 ⟨f a, hf, rfl⟩
      simp [hf, hg]
    · by_cases hg : g (f a) ∈ taken'
      · have hlen := (firsts_comp_sublist (f := f) (l := l) hT').length_le
        simp only [hf, hg, if_true, if_false]
        constructor
        · intro heq
          rw [heq, List.length_cons] at hlen
          omega
        · exact fun h => absurd (h.1 trivial) (by simp)
      · simp [hf, hg]

theorem repeats_comp_eq (hT : ∀ k, k ∈ taken' ↔ ∃ t ∈ taken, g t = k)
    (h : Throughout (fun pre a => Seen (g ∘ f) taken' pre a → Seen f taken pre a) l) :
    repeats (g ∘ f) taken' l = repeats f taken l := by
  induction l generalizing taken taken' with
  | nil => rfl
  | cons a l ih =>
    rw [throughout_cons, seen_nil, seen_nil, throughout_congr fun pre b => by
      rw [seen_cons, seen_cons], Function.comp_apply] at h
    have ih := ih (taken_cons (f := f) (a := a) hT) h.2
    have hiff : g (f a) ∈ taken' ↔ f a ∈ taken := ⟨h.1, fun hf => (hT _).2 ⟨f a, hf, rfl⟩⟩
    rw [repeats_cons, repeats_cons, Function.comp_apply, ih]
    simp only [hiff]

end Coarser

theorem filter_eq_repeats_iff {p : α → Bool} (hl : l.Nodup) :
    l.filter p = repeats f taken l ↔
      Throughout (fun pre a => p a = true ↔ Seen f taken pre a) l := by
  induction l generalizing taken with
  | nil => simp [repeats, throughout_nil]
  | cons a l ih =>
    obtain ⟨ha, hl⟩ := List.nodup_cons.1 hl
    have ha₁ : a ∉ l.filter p := fun h => ha (List.mem_of_mem_filter h)
    have ha₂ : a ∉ repeats f (f a :: taken) l := fun h => ha ((repeats_sublist ..).subset h)
    rw [repeats_cons, throughout_cons, seen_nil, throughout_congr fun pre b => by rw [seen_cons],
      ← ih hl, List.filter_cons]
    by_cases hp : p a = true
    · by_cases hf : f a ∈ taken
      · simp [hp, hf]
      · simp only [hp, hf, if_true, if_false]
        constructor
        · intro heq
          exact absurd (heq ▸ List.mem_cons_self) ha₂
        · exact fun h => absurd (h.1.1 trivial) id
    · by_cases hf : f a ∈ taken
      · rw [if_neg hp, if_pos hf]
        constructor
        · intro heq
          exact absurd (heq ▸ List.mem_cons_self) ha₁
        · exact fun h => absurd (h.1.2 hf) hp
      · simp [hp, hf]

end FirstSeen

import Mathlib.Logic.Relation

namespace Resumption

/-- A program over a shared state `σ`.  Every `step` is atomic: other programs
may run between two steps, never inside one.  At each step the environment
makes a choice in `ι`; an exception ends the program. -/
inductive Prog (ι σ ε α : Type) : Type 1
  | ret : Except ε α → Prog ι σ ε α
  | step {β : Type} : (ι → σ → Except ε β × σ) → (β → Prog ι σ ε α) → Prog ι σ ε α

namespace Prog

variable {ι σ ε α β γ : Type} {R R' A A' : σ → σ → Prop} {I : σ → Prop} {s t : σ}
  {r : Except ε α} {Q Q' : Except ε α → σ → Prop}

def bind : Prog ι σ ε α → (α → Prog ι σ ε γ) → Prog ι σ ε γ
  | .ret (.ok a), g => g a
  | .ret (.error e), _ => .ret (.error e)
  | .step f k, g => .step f (fun b => (k b).bind g)

instance : Monad (Prog ι σ ε) where
  pure a := .ret (.ok a)
  bind := Prog.bind

def attempt : Prog ι σ ε α → Prog ι σ ε (Except ε α)
  | .ret r => .ret (.ok r)
  | .step f k => .step (fun i s => (.ok (f i s).1, (f i s).2)) fun
    | .ok b => (k b).attempt
    | .error e => .ret (.ok (.error e))

instance : MonadExceptOf ε (Prog ι σ ε) where
  throw e := .ret (.error e)
  tryCatch p handler := p.attempt.bind fun
    | .ok a => .ret (.ok a)
    | .error e => handler e

/-- `try { p } finally { q }`: an exception of `q` replaces the outcome of `p`. -/
def ensuring (p : Prog ι σ ε α) (q : Prog ι σ ε Unit) : Prog ι σ ε α := do
  let r ← p.attempt
  q
  .ret r

/-- Run to completion alone, with the environment's choices given in advance. -/
def run : Prog ι σ ε α → (Nat → ι) → σ → Except ε α × σ
  | .ret r, _, s => (r, s)
  | .step f k, c, s =>
    match f (c 0) s with
    | (.ok b, t) => (k b).run (fun n => c (n + 1)) t
    | (.error e, t) => (.error e, t)

def advance : Nat → Prog ι σ ε α → (Nat → ι) → σ → Prog ι σ ε α × σ
  | 0, p, _, s => (p, s)
  | _ + 1, .ret r, _, s => (.ret r, s)
  | n + 1, .step f k, c, s =>
    match f (c 0) s with
    | (.ok b, t) => advance n (k b) (fun m => c (m + 1)) t
    | (.error e, t) => (.ret (.error e), t)

@[simp] theorem pure_eq (a : α) : (pure a : Prog ι σ ε α) = .ret (.ok a) := rfl

@[simp] theorem throw_eq (e : ε) : (throw e : Prog ι σ ε α) = .ret (.error e) := rfl

@[simp] theorem ok_bind (a : α) (g : α → Prog ι σ ε γ) :
    ((.ret (.ok a) : Prog ι σ ε α) >>= g) = g a := rfl

@[simp] theorem error_bind (e : ε) (g : α → Prog ι σ ε γ) :
    ((.ret (.error e) : Prog ι σ ε α) >>= g) = .ret (.error e) := rfl

@[simp] theorem step_bind (f : ι → σ → Except ε β × σ) (k : β → Prog ι σ ε α)
    (g : α → Prog ι σ ε γ) :
    ((.step f k : Prog ι σ ε α) >>= g) = .step f (fun b => k b >>= g) := rfl

theorem bind_assoc {δ : Type} (p : Prog ι σ ε α) (g : α → Prog ι σ ε γ) (h : γ → Prog ι σ ε δ) :
    (p >>= g) >>= h = p >>= fun a => g a >>= h := by
  induction p with
  | ret r => cases r <;> rfl
  | step f k ih => exact congrArg (Prog.step f) (funext ih)

theorem forM_cons {β : Type} (x : β) (xs : List β) (g : β → Prog ι σ ε PUnit) :
    (x :: xs).forM g = g x >>= fun _ => xs.forM g := rfl

theorem mapM'_cons {β : Type} (x : β) (xs : List β) (g : β → Prog ι σ ε α) :
    (x :: xs).mapM' g = g x >>= fun a => xs.mapM' g >>= fun as => .ret (.ok (a :: as)) := rfl

def Guarantees (R A : σ → σ → Prop) :
    Prog ι σ ε α → (Except ε α → σ → Prop) → σ → Prop
  | .ret r, Q, s => Q r s
  | .step f k, Q, s => ∀ i t, R s t → A t (f i t).2 ∧
      match (f i t).1 with
      | .ok b => (k b).Guarantees R A Q (f i t).2
      | .error e => Q (.error e) (f i t).2

@[simp] theorem guarantees_ret {r : Except ε α} :
    (.ret r : Prog ι σ ε α).Guarantees R A Q s ↔ Q r s := .rfl

theorem Guarantees.mono {p : Prog ι σ ε α} (h : p.Guarantees R A Q s)
    (hR : ∀ s t, R' s t → R s t) (hA : ∀ s t, A s t → A' s t)
    (hQ : ∀ r s, Q r s → Q' r s) : p.Guarantees R' A' Q' s := by
  induction p generalizing s with
  | ret r => exact hQ r s h
  | step f k ih =>
    intro i t hst
    obtain ⟨ha, hk⟩ := h i t (hR s t hst)
    refine ⟨hA _ _ ha, ?_⟩
    cases hf : (f i t).1 with
    | ok b => exact ih b (by simpa only [hf] using hk)
    | error e => exact hQ _ _ (by simpa only [hf] using hk)

theorem Guarantees.weaken {p : Prog ι σ ε α} (h : p.Guarantees R A Q s)
    (hQ : ∀ r s, Q r s → Q' r s) : p.Guarantees R A Q' s :=
  h.mono (fun _ _ h => h) (fun _ _ h => h) hQ

/-- What holds at the start, survives interference and is kept by every step holds at the end. -/
theorem Guarantees.invariant {p : Prog ι σ ε α} (h : p.Guarantees R A Q s) (hs : I s)
    (hR : ∀ s t, I s → R s t → I t) (hA : ∀ s t, I s → A s t → I t) :
    p.Guarantees R A (fun r t => I t ∧ Q r t) s := by
  induction p generalizing s with
  | ret r => exact ⟨hs, h⟩
  | step f k ih =>
    intro i t hst
    obtain ⟨ha, hk⟩ := h i t hst
    have hu := hA t _ (hR s t hs hst) ha
    refine ⟨ha, ?_⟩
    cases hf : (f i t).1 with
    | ok b => exact ih b (by simpa only [hf] using hk) hu
    | error e => exact ⟨hu, by simpa only [hf] using hk⟩

theorem guarantees_true (p : Prog ι σ ε α) :
    p.Guarantees R (fun _ _ => True) (fun _ _ => True) s := by
  induction p generalizing s with
  | ret r => trivial
  | step f k ih =>
    refine fun i t _ => ⟨trivial, ?_⟩
    split
    · exact ih _
    · trivial

theorem Guarantees.bind {Q : Except ε γ → σ → Prop} {p : Prog ι σ ε α}
    {g : α → Prog ι σ ε γ}
    (h : p.Guarantees R A (fun
      | .ok a, t => (g a).Guarantees R A Q t
      | .error e, t => Q (.error e) t) s) :
    (p >>= g).Guarantees R A Q s := by
  induction p generalizing s with
  | ret r =>
    cases r with
    | ok a => exact h
    | error e => exact h
  | step f k ih =>
    intro i t hst
    obtain ⟨ha, hk⟩ := h i t hst
    refine ⟨ha, ?_⟩
    cases hf : (f i t).1 with
    | ok b => exact ih b (by simpa only [hf] using hk)
    | error e => simpa only [hf] using hk

theorem Guarantees.attempt {Q : Except ε (Except ε α) → σ → Prop} {p : Prog ι σ ε α}
    (h : p.Guarantees R A (fun r t => Q (.ok r) t) s) : p.attempt.Guarantees R A Q s := by
  induction p generalizing s with
  | ret r => exact h
  | step f k ih =>
    simp only [Prog.attempt, Guarantees] at h ⊢
    intro i t hst
    obtain ⟨ha, hk⟩ := h i t hst
    refine ⟨ha, ?_⟩
    cases hf : (f i t).1 with
    | ok b => exact ih b (by simpa only [hf] using hk)
    | error e => simpa only [hf, guarantees_ret] using hk

theorem Guarantees.ensuring {p : Prog ι σ ε α} {q : Prog ι σ ε Unit}
    (h : p.Guarantees R A (fun r t => q.Guarantees R A (fun
      | .ok _, u => Q r u
      | .error e, u => Q (.error e) u) t) s) :
    (p.ensuring q).Guarantees R A Q s := by
  refine Guarantees.bind (Guarantees.attempt (h.weaken fun r t hq => ?_))
  refine Guarantees.bind (hq.weaken fun r' u hu => ?_)
  cases r' with
  | ok _ => exact hu
  | error e => exact hu

theorem Guarantees.ite {P : Prop} [Decidable P] {p q : Prog ι σ ε α}
    (hp : P → p.Guarantees R A Q s) (hq : ¬ P → q.Guarantees R A Q s) :
    (if P then p else q).Guarantees R A Q s := by
  split
  · exact hp ‹_›
  · exact hq ‹_›

def Within (R A : σ → σ → Prop) (p : Prog ι σ ε α) (K : α → σ → Prop) : σ → Prop :=
  p.Guarantees R A fun
    | .ok a, t => K a t
    | .error _, _ => True

section Within

variable {p : Prog ι σ ε α} {K K' : α → σ → Prop}

@[simp] theorem within_ok {a : α} :
    (.ret (.ok a) : Prog ι σ ε α).Within R A K s ↔ K a s := .rfl

@[simp] theorem within_error {e : ε} :
    (.ret (.error e) : Prog ι σ ε α).Within R A K s := trivial

theorem Within.weaken (h : p.Within R A K s) (hK : ∀ a s, K a s → K' a s) :
    p.Within R A K' s :=
  Guarantees.weaken h fun r s hs => by
    cases r with
    | ok a => exact hK a s hs
    | error e => trivial

theorem Within.bind {K : γ → σ → Prop} {g : α → Prog ι σ ε γ}
    (h : p.Within R A (fun a t => (g a).Within R A K t) s) :
    (p >>= g).Within R A K s :=
  Guarantees.bind <| Guarantees.weaken h fun r s hs => by
    cases r with
    | ok a => exact hs
    | error e => trivial

theorem Within.ensuring {q : Prog ι σ ε Unit} (h : p.Within R A K s)
    (hq : ∀ t, q.Within R A (fun _ _ => True) t) :
    (p.ensuring q).Within R A (fun _ _ => True) s :=
  Guarantees.ensuring <| Guarantees.weaken h fun r t _ =>
    Guarantees.weaken (hq t) fun r' u _ => by
      cases r' with
      | ok _ => cases r <;> trivial
      | error e => trivial

theorem within_forM {β : Type} {K : σ → Prop} {g : β → Prog ι σ ε PUnit} {xs : List β}
    (h : ∀ x ∈ xs, ∀ s, K s → (g x).Within R A (fun _ t => K t) s) (hs : K s) :
    (xs.forM g).Within R A (fun _ t => K t) s := by
  induction xs generalizing s with
  | nil => exact hs
  | cons x xs ih =>
    exact Within.bind <| (h x (by simp) s hs).weaken fun _ t ht =>
      ih (fun y hy => h y (List.mem_cons_of_mem _ hy)) ht

end Within

def Drifts (R S : σ → σ → Prop) (p : Prog ι σ ε α) : Prop :=
  ∀ s, p.Guarantees R (fun _ _ => True) (fun _ t => S s t) s

section Drifts

variable {S : σ → σ → Prop}

theorem drifts_ret (hS : ∀ s, S s s) (r : Except ε α) : (.ret r : Prog ι σ ε α).Drifts R S := hS

theorem Drifts.bind {p : Prog ι σ ε α} {g : α → Prog ι σ ε γ}
    (hS : ∀ s t u, S s t → S t u → S s u) (hp : p.Drifts R S) (hg : ∀ a, (g a).Drifts R S) :
    (p >>= g).Drifts R S := fun s =>
  Guarantees.bind <| (hp s).weaken fun r t hst => by
    cases r with
    | ok a => exact (hg a t).weaken fun _ u htu => hS s t u hst htu
    | error e => exact hst

theorem Drifts.ite {P : Prop} [Decidable P] {p q : Prog ι σ ε α} (hp : p.Drifts R S)
    (hq : q.Drifts R S) : (if P then p else q).Drifts R S := by
  split
  · exact hp
  · exact hq

theorem Drifts.ensuring {p : Prog ι σ ε α} {q : Prog ι σ ε Unit}
    (hS : ∀ s t u, S s t → S t u → S s u) (hp : p.Drifts R S) (hq : q.Drifts R S) :
    (p.ensuring q).Drifts R S := fun s =>
  Guarantees.ensuring <| (hp s).weaken fun _ t hst => (hq t).weaken fun r' u htu => by
    cases r' <;> exact hS s t u hst htu

theorem Drifts.forM {β : Type} {g : β → Prog ι σ ε PUnit} {xs : List β} (hS₀ : ∀ s, S s s)
    (hS : ∀ s t u, S s t → S t u → S s u) (hg : ∀ x ∈ xs, (g x).Drifts R S) :
    (xs.forM g).Drifts R S := by
  induction xs with
  | nil => exact drifts_ret hS₀ _
  | cons x xs ih =>
    exact (hg x (by simp)).bind hS fun _ => ih fun y hy => hg y (List.mem_cons_of_mem _ hy)

theorem guarantees_forM_once {β : Type} {a : β} {g : β → Prog ι σ ε PUnit} {xs : List β} {s₀ : σ}
    {Q : Except ε PUnit → σ → Prop} (hS₀ : ∀ s, S s s) (hS : ∀ s t u, S s t → S t u → S s u)
    (hn : xs.Nodup) (hs : S s₀ s) (hnone : ∀ r t, S s₀ t → Q r t)
    (hother : ∀ x, x ≠ a → (g x).Drifts R S)
    (ha : a ∈ xs → ∀ t, S s₀ t → (g a).Guarantees R (fun _ _ => True) Q t)
    (hrest : ∀ r t u, Q (.ok ()) t → S t u → Q r u) :
    (xs.forM g).Guarantees R (fun _ _ => True) Q s := by
  induction xs generalizing s with
  | nil => exact hnone _ s hs
  | cons x xs ih =>
    obtain ⟨hx, hn⟩ := List.nodup_cons.1 hn
    rw [forM_cons]
    by_cases h : x = a
    · subst h
      refine Guarantees.bind <| (ha (by simp) s hs).weaken fun r t ht => ?_
      cases r with
      | error e => exact ht
      | ok _ =>
        have hdrift : (xs.forM g).Drifts R S := .forM hS₀ hS fun y hy => hother y fun he =>
          hx (he ▸ hy)
        exact (hdrift t).weaken fun r u htu => hrest r t u ht htu
    · refine Guarantees.bind <| (hother x h s).weaken fun r t ht => ?_
      cases r with
      | error e => exact hnone _ t (hS _ _ _ hs ht)
      | ok _ => exact ih hn (hS _ _ _ hs ht) fun hm => ha (List.mem_cons_of_mem _ hm)

end Drifts

/-- A complete execution, with interference in `R` before each step. -/
inductive Exec (R : σ → σ → Prop) : Prog ι σ ε α → σ → Except ε α → σ → Prop
  | ret {r : Except ε α} {s : σ} : Exec R (.ret r) s r s
  | ok {β : Type} {f : ι → σ → Except ε β × σ} {k : β → Prog ι σ ε α} {i : ι} {b : β}
      {s t u v : σ} {r : Except ε α} :
      R s t → f i t = (.ok b, u) → Exec R (k b) u r v → Exec R (.step f k) s r v
  | error {β : Type} {f : ι → σ → Except ε β × σ} {k : β → Prog ι σ ε α} {i : ι} {e : ε}
      {s t u : σ} :
      R s t → f i t = (.error e, u) → Exec R (.step f k) s (.error e) u

theorem Exec.mono {p : Prog ι σ ε α} (h : Exec R p s r t) (hR : ∀ s t, R s t → R' s t) :
    Exec R' p s r t := by
  induction h with
  | ret => exact .ret
  | ok hst hf _ ih => exact .ok (hR _ _ hst) hf ih
  | error hst hf => exact .error (hR _ _ hst) hf

/-- The program when the environment chooses `c` at every step. -/
def always (c : ι) : Prog ι σ ε α → Prog Unit σ ε α
  | .ret r => .ret r
  | .step f k => .step (fun _ => f c) fun b => (k b).always c

def Avoids (c : ι) (D : ε → Prop) : Prog ι σ ε α → Prop
  | .ret (.ok _) => True
  | .ret (.error e) => ¬ D e
  | .step f k => ∀ s, match (f c s).1 with
    | .ok b => (k b).Avoids c D
    | .error e => ¬ D e

section Avoids

variable {c : ι} {D : ε → Prop} {p : Prog ι σ ε α}

theorem Exec.of_always (h : Exec R (p.always c) s r t) : Exec R p s r t := by
  induction p generalizing s with
  | ret r' =>
    cases h
    exact .ret
  | step f k ih =>
    cases h with
    | ok hst hf hk => exact .ok hst hf (ih _ hk)
    | error hst hf => exact .error hst hf

theorem run_always (n : Nat → Unit) : (p.always c).run n s = p.run (fun _ => c) s := by
  induction p generalizing n s with
  | ret r' => rfl
  | step f k ih =>
    simp only [always, run]
    split
    · exact ih _ _
    · rfl

theorem Exec.avoids (h : Exec R (p.always c) s r t) (hp : p.Avoids c D) :
    ∀ e, r = .error e → ¬ D e := by
  induction p generalizing s with
  | ret r' =>
    cases h
    cases r with
    | ok a => exact nofun
    | error e => exact fun _ he => by cases he; exact hp
  | step f k ih =>
    cases h with
    | @ok _ _ _ _ _ _ u _ _ _ _ hf hk =>
      have hu := hp u
      rw [show f c u = _ from hf] at hu
      exact ih _ hk hu
    | @error _ _ _ _ _ _ u _ _ hf =>
      have hu := hp u
      rw [show f c u = _ from hf] at hu
      exact fun _ he => by cases he; exact hu

theorem Avoids.bind {g : α → Prog ι σ ε γ} (hp : p.Avoids c D) (hg : ∀ a, (g a).Avoids c D) :
    (p >>= g).Avoids c D := by
  induction p with
  | ret r =>
    cases r with
    | ok a => exact hg a
    | error e => exact hp
  | step f k ih =>
    intro s
    have hs := hp s
    dsimp only at hs ⊢
    split at hs
    · exact ih _ hs
    · exact hs

theorem Avoids.ite {P : Prop} [Decidable P] {q : Prog ι σ ε α} (hp : p.Avoids c D)
    (hq : q.Avoids c D) : (if P then p else q).Avoids c D := by
  split
  · exact hp
  · exact hq

theorem Avoids.forM {β : Type} {g : β → Prog ι σ ε PUnit} {xs : List β}
    (hg : ∀ x, (g x).Avoids c D) : (xs.forM g).Avoids c D := by
  induction xs with
  | nil => trivial
  | cons x xs ih => exact (hg x).bind fun _ => ih

theorem Avoids.attempt {g : Except ε α → Prog ι σ ε γ} (hp : p.Avoids c D)
    (hg : ∀ r, (.ret r : Prog ι σ ε α).Avoids c D → (g r).Avoids c D) :
    (p.attempt >>= g).Avoids c D := by
  induction p with
  | ret r => exact hg r hp
  | step f k ih =>
    simp only [Prog.attempt, step_bind, Avoids] at hp ⊢
    intro s
    have hs := hp s
    split at hs
    · exact ih _ hs
    · exact hg _ hs

theorem Avoids.ensuring {q : Prog ι σ ε Unit} (hp : p.Avoids c D) (hq : q.Avoids c D) :
    (p.ensuring q).Avoids c D :=
  hp.attempt fun _ hr => hq.bind fun _ => hr

end Avoids

def Spares (D : ε → Prop) : Prog ι σ ε α → Prop
  | .ret (.ok _) => True
  | .ret (.error e) => ¬ D e
  | .step f k => ∀ i s, match (f i s).1 with
    | .ok b => (k b).Spares D
    | .error e => ¬ D e

section Spares

variable {D : ε → Prop} {p : Prog ι σ ε α}

theorem Spares.guarantees (h : p.Spares D) :
    p.Guarantees R (fun _ _ => True) (fun r _ => ∀ e, r = .error e → ¬ D e) s := by
  induction p generalizing s with
  | ret r =>
    cases r with
    | ok a => exact nofun
    | error e => exact fun _ he => by cases he; exact h
  | step f k ih =>
    refine fun i t _ => ⟨trivial, ?_⟩
    have hs := h i t
    cases hf : (f i t).1 with
    | ok b => exact ih b (by simpa only [hf] using hs)
    | error e => exact fun _ he => by cases he; simpa only [hf] using hs

theorem Spares.bind {g : α → Prog ι σ ε γ} (hp : p.Spares D) (hg : ∀ a, (g a).Spares D) :
    (p >>= g).Spares D := by
  induction p with
  | ret r =>
    cases r with
    | ok a => exact hg a
    | error e => exact hp
  | step f k ih =>
    intro i s
    have hs := hp i s
    dsimp only at hs ⊢
    split at hs
    · exact ih _ hs
    · exact hs

theorem Spares.ite {P : Prop} [Decidable P] {q : Prog ι σ ε α} (hp : p.Spares D)
    (hq : q.Spares D) : (if P then p else q).Spares D := by
  split
  · exact hp
  · exact hq

theorem Spares.forM {β : Type} {g : β → Prog ι σ ε PUnit} {xs : List β}
    (hg : ∀ x, (g x).Spares D) : (xs.forM g).Spares D := by
  induction xs with
  | nil => trivial
  | cons x xs ih => exact (hg x).bind fun _ => ih

end Spares

/-- Started in `s`, the program at some point makes a step from `t` to `u`. -/
inductive Makes (R : σ → σ → Prop) : Prog ι σ ε α → σ → σ → σ → Prop
  | here {β : Type} {f : ι → σ → Except ε β × σ} {k : β → Prog ι σ ε α} {i : ι} {s t : σ} :
      R s t → Makes R (.step f k) s t (f i t).2
  | later {β : Type} {f : ι → σ → Except ε β × σ} {k : β → Prog ι σ ε α} {i : ι} {b : β}
      {s t u v w : σ} :
      R s t → f i t = (.ok b, u) → Makes R (k b) u v w → Makes R (.step f k) s v w

theorem exec_run (hR : ∀ s, R s s) (p : Prog ι σ ε α) (c : Nat → ι) (s : σ) :
    Exec R p s (p.run c s).1 (p.run c s).2 := by
  induction p generalizing c s with
  | ret r => exact .ret
  | step f k ih =>
    simp only [run]
    split
    · rename_i b t hf
      exact .ok (hR s) hf (ih b _ t)
    · rename_i e t hf
      exact .error (hR s) hf

def trail : Prog ι σ ε α → (Nat → ι) → σ → List (σ × σ)
  | .ret _, _, _ => []
  | .step f k, c, s => (s, (f (c 0) s).2) ::
    match (f (c 0) s).1 with
    | .ok b => (k b).trail (fun n => c (n + 1)) (f (c 0) s).2
    | .error _ => []

theorem makes_of_mem_trail (hR : ∀ s, R s s) {p : Prog ι σ ε α} {c : Nat → ι} {u : σ}
    (h : (t, u) ∈ p.trail c s) : Makes R p s t u := by
  induction p generalizing c s with
  | ret r => cases h
  | step f k ih =>
    rw [trail] at h
    rcases List.mem_cons.1 h with h | h
    · cases h
      exact .here (hR _)
    · cases hf : (f (c 0) s).1 with
      | ok b =>
        rw [hf] at h
        exact .later (hR s) (Prod.ext hf rfl) (ih b h)
      | error e =>
        rw [hf] at h
        cases h

theorem Exec.sound_rely {p : Prog ι σ ε α} (h : Exec R' p s r t)
    (hg : p.Guarantees R A Q s) (hs : I s) (hR : ∀ s t, I s → R' s t → R s t ∧ I t)
    (hA : ∀ s t, I s → A s t → I t) : I t ∧ Q r t := by
  induction h with
  | ret => exact ⟨hs, hg⟩
  | @ok _ f k i b s t u v r hst hf _ ih =>
    obtain ⟨hst, ht⟩ := hR s t hs hst
    have ha := hg i t hst
    rw [hf] at ha
    exact ih ha.2 (hA t u ht ha.1)
  | @error _ f k i e s t u hst hf =>
    obtain ⟨hst, ht⟩ := hR s t hs hst
    have ha := hg i t hst
    rw [hf] at ha
    exact ⟨hA t u ht ha.1, ha.2⟩

theorem Exec.sound {p : Prog ι σ ε α} (h : Exec R p s r t)
    (hg : p.Guarantees R A Q s) (hs : I s) (hR : ∀ s t, I s → R s t → I t)
    (hA : ∀ s t, I s → A s t → I t) : I t ∧ Q r t :=
  h.sound_rely hg hs (fun s t hs hst => ⟨hst, hR s t hs hst⟩) hA

theorem Exec.ends {p : Prog ι σ ε α} (h : Exec R p s r t) (hg : p.Guarantees R' A Q s)
    (hR : ∀ s t, R s t → R' s t) : Q r t :=
  (h.sound (hg.mono hR (fun _ _ h => h) fun _ _ h => h) (I := fun _ => True) trivial
    (fun _ _ _ _ => trivial) fun _ _ _ _ => trivial).2

theorem Makes.sound_rely {u : σ} {p : Prog ι σ ε α} (h : Makes R' p s t u)
    (hg : p.Guarantees R A Q s) (hs : I s) (hR : ∀ s t, I s → R' s t → R s t ∧ I t)
    (hA : ∀ s t, I s → A s t → I t) : I t ∧ A t u := by
  induction h with
  | @here _ f k i s t hst =>
    obtain ⟨hst, ht⟩ := hR s t hs hst
    exact ⟨ht, (hg i t hst).1⟩
  | @later _ f k i b s t u v w hst hf _ ih =>
    obtain ⟨hst, ht⟩ := hR s t hs hst
    have ha := hg i t hst
    rw [hf] at ha
    exact ih ha.2 (hA t u ht ha.1)

theorem Makes.sound {u : σ} {p : Prog ι σ ε α} (h : Makes R p s t u)
    (hg : p.Guarantees R A Q s) (hs : I s) (hR : ∀ s t, I s → R s t → I t)
    (hA : ∀ s t, I s → A s t → I t) : I t ∧ A t u :=
  h.sound_rely hg hs (fun s t hs hst => ⟨hst, hR s t hs hst⟩) hA

end Prog
end Resumption

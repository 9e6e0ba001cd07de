import InvitationService.Lib.Transaction

namespace Resumption

/-- Who moves: the first of two programs, the second, or the environment, which says how. -/
inductive Turn (τ : Type)
  | first
  | second
  | env (e : τ)
  deriving DecidableEq, Repr

namespace Turn

variable {τ : Type}

/-- The second program moves before the first takes its step `n`. -/
def overtakes : List (Turn τ) → Nat → Bool
  | [], _ => false
  | .second :: _, _ => true
  | .env _ :: l, n => overtakes l n
  | .first :: _, 0 => false
  | .first :: l, n + 1 => overtakes l n

/-- What the environment last said when the first program takes its step `n`; `e` before it said
anything. -/
def latest : List (Turn τ) → τ → Nat → τ
  | [], e, _ => e
  | .second :: l, e, n => latest l e n
  | .env e :: l, _, n => latest l e n
  | .first :: _, e, 0 => e
  | .first :: l, e, n + 1 => latest l e n

end Turn

namespace Prog

variable {ι σ ε α β γ τ : Type} {E : τ → σ → σ → Prop} {L R A : σ → σ → Prop}
  {l l' : List (Turn τ)} {s t u : σ} {K : α → σ → Prop}

/-- Two programs side by side, in the order of `l`, to their ends. -/
inductive Joint (E : τ → σ → σ → Prop) : List (Turn τ) → Prog ι σ ε α → Prog ι σ ε β → σ →
    Except ε α → Except ε β → σ → Prop
  | ret {r : Except ε α} {r' : Except ε β} {s : σ} : Joint E [] (.ret r) (.ret r') s r r' s
  | env {l : List (Turn τ)} {p : Prog ι σ ε α} {q : Prog ι σ ε β} {e : τ} {s t u : σ}
      {r : Except ε α} {r' : Except ε β} :
      E e s t → Joint E l p q t r r' u → Joint E (.env e :: l) p q s r r' u
  | first {l : List (Turn τ)} {q : Prog ι σ ε β} {η : Type} {f : ι → σ → Except ε η × σ}
      {k : η → Prog ι σ ε α} {s u : σ} {r : Except ε α} {r' : Except ε β} (i : ι) :
      Joint E l (match (f i s).1 with
        | .ok b => k b
        | .error e => .ret (.error e)) q (f i s).2 r r' u →
      Joint E (.first :: l) (.step f k) q s r r' u
  | second {l : List (Turn τ)} {p : Prog ι σ ε α} {η : Type} {f : ι → σ → Except ε η × σ}
      {k : η → Prog ι σ ε β} {s u : σ} {r : Except ε α} {r' : Except ε β} (i : ι) :
      Joint E l p (match (f i s).1 with
        | .ok b => k b
        | .error e => .ret (.error e)) (f i s).2 r r' u →
      Joint E (.second :: l) p (.step f k) s r r' u

def race (i : ι) : List (Turn τ) → Prog ι σ ε α → Prog ι σ ε β → σ →
    Option (Except ε α × Except ε β × σ)
  | [], .ret r, .ret r', s => some (r, r', s)
  | .first :: l, .step f k, q, s => race i l (match (f i s).1 with
    | .ok b => k b
    | .error e => .ret (.error e)) q (f i s).2
  | .second :: l, p, .step f k, s => race i l p (match (f i s).1 with
    | .ok b => k b
    | .error e => .ret (.error e)) (f i s).2
  | _, _, _, _ => none

theorem joint_of_race {i : ι} {p : Prog ι σ ε α} {q : Prog ι σ ε β}
    {x : Except ε α × Except ε β × σ} (h : race i l p q s = some x) :
    Joint E l p q s x.1 x.2.1 x.2.2 := by
  induction l generalizing p q s with
  | nil =>
    cases p with
    | step f k => cases h
    | ret r =>
      cases q with
      | step f k => cases h
      | ret r' =>
        cases h
        exact .ret
  | cons a l ih =>
    cases a with
    | first =>
      cases p with
      | ret r => cases h
      | step f k => exact .first i (ih h)
    | second =>
      cases q with
      | ret r => cases p <;> cases h
      | step f k =>
        refine .second i (ih ?_)
        cases p <;> exact h
    | env e => cases p <;> cases h

theorem Joint.first_ret {q : Prog ι σ ε β} {r₀ r : Except ε α} {r' : Except ε β}
    (h : Joint E l (.ret r₀) q s r r' t) : r = r₀ := by
  generalize hp : (.ret r₀ : Prog ι σ ε α) = p at h
  induction h with
  | ret =>
    cases hp
    rfl
  | env _ _ ih => exact ih hp
  | first => cases hp
  | second _ _ ih => exact ih hp

theorem Joint.second_ret {p : Prog ι σ ε α} {r : Except ε α} {r₀ r' : Except ε β}
    (h : Joint E l p (.ret r₀) s r r' t) : r' = r₀ := by
  generalize hq : (.ret r₀ : Prog ι σ ε β) = q at h
  induction h with
  | ret =>
    cases hq
    rfl
  | env _ _ ih => exact ih hq
  | first _ _ ih => exact ih hq
  | second => cases hq

def Along (E : τ → σ → σ → Prop) (L : σ → σ → Prop) :
    List (Turn τ) → Prog ι σ ε α → (α → σ → Prop) → σ → Prop
  | [], .ret (.ok a), K, s => K a s
  | [], _, _, _ => True
  | .env e :: l, p, K, s => ∀ t, E e s t → Along E L l p K t
  | .second :: l, p, K, s => ∀ t, L s t → Along E L l p K t
  | .first :: _, .ret _, _, _ => True
  | .first :: l, .step f k, K, s => ∀ i, match f i s with
    | (.ok b, t) => Along E L l (k b) K t
    | (.error _, _) => True

inductive Others (E : τ → σ → σ → Prop) (L : σ → σ → Prop) (l' : List (Turn τ)) :
    List (Turn τ) → σ → σ → Prop
  | refl {s : σ} : Others E L l' l' s s
  | env {l : List (Turn τ)} {e : τ} {s t u : σ} :
      E e s t → Others E L l' l t u → Others E L l' (.env e :: l) s u
  | second {l : List (Turn τ)} {s t u : σ} :
      L s t → Others E L l' l t u → Others E L l' (.second :: l) s u

theorem Others.overtakes_succ {n : Nat} (h : Others E L (.first :: l') l s t) :
    Turn.overtakes l (n + 1) = (Turn.overtakes l 0 || Turn.overtakes l' n) := by
  induction h with
  | refl => simp [Turn.overtakes]
  | env _ _ ih => exact ih
  | second _ _ _ => simp [Turn.overtakes]

theorem Others.latest_succ {n : Nat} {e : τ} (h : Others E L (.first :: l') l s t) :
    Turn.latest l e (n + 1) = Turn.latest l' (Turn.latest l e 0) n := by
  induction h generalizing e with
  | refl => rfl
  | env _ _ ih => exact ih
  | second _ _ ih => exact ih

theorem along_step {η : Type} {f : ι → σ → Except ε η × σ} {k : η → Prog ι σ ε α}
    (h : ∀ l' t, Others E L (.first :: l') l s t → ∀ i, match f i t with
      | (.ok b, u) => Along E L l' (k b) K u
      | (.error _, _) => True) : Along E L l (.step f k) K s := by
  induction l generalizing s with
  | nil => trivial
  | cons a l ih =>
    cases a with
    | first => exact h l s .refl
    | second => exact fun t hst => ih fun l' u hu => h l' u (.second hst hu)
    | env e => exact fun t hst => ih fun l' u hu => h l' u (.env hst hu)

theorem Within.along {p : Prog ι σ ε α} {s₀ : σ} (hp : p.Within R A K s₀) (hs : R s₀ s)
    (hrefl : ∀ s, R s s) (htrans : ∀ s t u, R s t → R t u → R s u)
    (hE : ∀ e s t, E e s t → R s t) (hL : ∀ s t, L s t → R s t)
    (hK : ∀ a s t, K a s → R s t → K a t) : Along E L l p K s := by
  induction l generalizing p s s₀ with
  | nil =>
    cases p with
    | step f k => trivial
    | ret r =>
      cases r with
      | error e => trivial
      | ok a => exact hK a _ _ hp hs
  | cons a l ih =>
    cases a with
    | env e => exact fun t hst => ih hp (htrans _ _ _ hs (hE e _ _ hst))
    | second => exact fun t hst => ih hp (htrans _ _ _ hs (hL _ _ hst))
    | first =>
      cases p with
      | ret r => trivial
      | step f k =>
        intro i
        have hk := (hp i s hs).2
        split
        · rename_i b t hf
          rw [hf] at hk
          exact ih hk (hrefl _)
        · trivial

theorem along_error {e : ε} : Along E L l (.ret (.error e) : Prog ι σ ε α) K s := by
  induction l generalizing s with
  | nil => trivial
  | cons a l ih =>
    cases a with
    | env e => exact fun _ _ => ih
    | second => exact fun _ _ => ih
    | first => trivial

theorem Joint.along {p : Prog ι σ ε α} {η : Type} {f : ι → σ → Except ε η × σ}
    {g : η → Except ε β} {a : α} {b : β}
    (h : Joint E l p (.step f fun x => .ret (g x)) s (.ok a) (.ok b) t)
    (hp : Along E (fun s t => ∃ i x, f i s = (.ok x, t)) l p K s) : K a t := by
  suffices H : ∀ (q : Prog ι σ ε β) (r : Except ε α) (r' : Except ε β), Joint E l p q s r r' t →
      r = .ok a → (q = .step f (fun x => .ret (g x)) ∧ r' = .ok b ∨ ∃ y, q = .ret y) →
      Along E (fun s t => ∃ i x, f i s = (.ok x, t)) l p K s → K a t from
    H _ _ _ h rfl (.inl ⟨rfl, rfl⟩) hp
  clear h hp
  intro q r r' h hr hq hp
  induction h with
  | ret =>
    subst hr
    exact hp
  | env he _ ih => exact ih hr hq (hp _ he)
  | @first _ _ _ f' _ s _ _ _ i hrest ih =>
    have hi := hp i
    cases hf : (f' i s).1 with
    | error e =>
      rw [hf] at hrest
      have := hrest.first_ret
      rw [hr] at this
      cases this
    | ok y =>
      rw [show f' i s = (.ok y, (f' i s).2) from Prod.ext hf rfl] at hi
      refine ih hr hq ?_
      simpa only [hf] using hi
  | @second _ _ _ f' _ s _ _ _ i hrest ih =>
    rcases hq with ⟨hq, hr'⟩ | ⟨y, hq⟩
    · cases hq
      cases hf : (f i s).1 with
      | error e =>
        rw [hf] at hrest
        have := hrest.second_ret
        rw [hr'] at this
        cases this
      | ok y =>
        refine ih hr (.inr ⟨g y, by rw [hf]⟩) (hp _ ⟨i, y, Prod.ext hf rfl⟩)
    · cases hq

end Prog

open Prog

variable {σ ε α γ τ : Type} {E : τ → σ → σ → Prop} {L : σ → σ → Prop} {l : List (Turn τ)} {s : σ}
  {K : γ → σ → Prop}

theorem along_perform {b : Block σ ε α} {g : α → Service σ ε γ}
    (h : ∀ l' t, Others E L (.first :: l') l s t → b.Ends (fun x u => Along E L l' (g x) K u) t) :
    Along E L l (perform b >>= g) K s :=
  along_step fun l' t ht c => by
    have hrun := Prog.Post.run (h l' t ht) c
    split
    · rename_i x u hf
      rw [show b.run c t = _ from hf] at hrun
      exact hrun
    · trivial

end Resumption

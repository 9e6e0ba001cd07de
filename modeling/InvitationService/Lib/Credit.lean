import InvitationService.Lib.System
import InvitationService.Lib.Transaction
import Mathlib.Algebra.BigOperators.Group.List.Basic

namespace Resumption

/-! Credits: what each call under way still owes to an invariant, or may still draw on it. -/

section

variable {ι σ ε α γ M : Type} [AddCommMonoid M] {I : σ → M → Prop} {s t : σ} {n m : M}

def Trades (I : σ → M → Prop) (s : σ) (n : M) (t : σ) (m : M) : Prop :=
  ∀ N, I s (n + N) → I t (m + N)

theorem Trades.of_move (h : ∀ N, I s N → I t N) : Trades I s n t n := fun N => h (n + N)

namespace Prog

def Spends (I : σ → M → Prop) (F : Except ε α → M → Prop) : Prog ι σ ε α → M → Prop
  | .ret r, n => F r n
  | .step f k, n => ∀ i s N, I s (n + N) → ∃ m, Trades I s n (f i s).2 m ∧
      match (f i s).1 with
      | .ok b => (k b).Spends I F m
      | .error e => F (.error e) m

variable {F F' : Except ε α → M → Prop} {p : Prog ι σ ε α}

@[simp] theorem spends_ret {r : Except ε α} : (.ret r : Prog ι σ ε α).Spends I F n ↔ F r n := .rfl

theorem Spends.mono (h : p.Spends I F n) (hF : ∀ r m, F r m → F' r m) : p.Spends I F' n := by
  induction p generalizing n with
  | ret r => exact hF r n h
  | step f k ih =>
    intro i s N hI
    obtain ⟨m, hm, hk⟩ := h i s N hI
    refine ⟨m, hm, ?_⟩
    cases hf : (f i s).1 with
    | ok b => exact ih b (by simpa only [hf] using hk)
    | error e => exact hF _ _ (by simpa only [hf] using hk)

theorem Spends.bind {F : Except ε γ → M → Prop} {g : α → Prog ι σ ε γ}
    (h : p.Spends I (fun
      | .ok a, m => (g a).Spends I F m
      | .error e, m => F (.error e) m) n) : (p >>= g).Spends I F n := by
  induction p generalizing n with
  | ret r =>
    cases r with
    | ok a => exact h
    | error e => exact h
  | step f k ih =>
    intro i s N hI
    obtain ⟨m, hm, hk⟩ := h i s N hI
    refine ⟨m, hm, ?_⟩
    cases hf : (f i s).1 with
    | ok b => exact ih b (by simpa only [hf] using hk)
    | error e => simpa only [hf] using hk

theorem Spends.attempt {F : Except ε (Except ε α) → M → Prop}
    (h : p.Spends I (fun r m => F (.ok r) m) n) : p.attempt.Spends I F n := by
  induction p generalizing n with
  | ret r => exact h
  | step f k ih =>
    simp only [Prog.attempt, Spends] at h ⊢
    intro i s N hI
    obtain ⟨m, hm, hk⟩ := h i s N hI
    refine ⟨m, hm, ?_⟩
    cases hf : (f i s).1 with
    | ok b => exact ih b (by simpa only [hf] using hk)
    | error e => simpa only [hf, spends_ret] using hk

theorem Spends.tryCatch {handler : ε → Prog ι σ ε α}
    (h : p.Spends I (fun
      | .ok a, m => F (.ok a) m
      | .error e, m => (handler e).Spends I F m) n) :
    (MonadExcept.tryCatch p handler).Spends I F n :=
  Spends.bind <| Spends.attempt <| h.mono fun r m hr => by
    cases r with
    | ok a => exact hr
    | error e => exact hr

end Prog

theorem spends_perform {b : Block σ ε α} {F : Except ε α → M → Prop}
    (h : ∀ s N, I s (n + N) → b.Post (fun r t => ∃ m, Trades I s n t m ∧ F r m) s) :
    (perform b).Spends I F n := by
  intro c s N hI
  obtain ⟨m, hm, hF⟩ := (h s N hI).run c
  refine ⟨m, hm, ?_⟩
  cases hr : (b.run c s).1 with
  | ok a => rw [hr] at hF; exact hF
  | error e => rw [hr] at hF; exact hF

theorem spends_look {b : Block σ ε α} {g : α → Service σ ε γ} {F : Except ε γ → M → Prop}
    (hb : b.Looks) (herr : ∀ e, F (.error e) n) (hok : ∀ a, (g a).Spends I F n) :
    (perform b >>= g).Spends I F n := by
  refine Prog.Spends.bind <| spends_perform fun s N _ => (hb s).mono fun r t hst => ?_
  refine ⟨n, .of_move fun N h => hst ▸ h, ?_⟩
  cases r with
  | ok a => exact hok a
  | error e => exact herr e

end

namespace System

variable {ι σ ε κ M : Type} [AddCommMonoid M] {S : System ι σ ε κ} {I : σ → M → Prop}

/-- The calls under way hold credits, which together keep the invariant; `n c` is what the call `c`
starts with. -/
theorem Interleaved.credits {F : κ → Except ε Unit → M → Prop} {n : κ → M} {s₀ s : σ}
    {ts : List (Thread ι σ ε κ)} (hs : S.Interleaved s₀ ts s) (h₀ : I s₀ 0)
    (henv : ∀ s t N, I s N → S.env s t → I t N)
    (harrive : ∀ c s N, I s N → S.enabled c s → I (S.arrive c s) (n c + N))
    (hexec : ∀ c, (S.exec c).Spends I (F c) (n c)) :
    ∃ cs : List (Thread ι σ ε κ × M), cs.map Prod.fst = ts ∧
      (∀ x ∈ cs, x.1.rest.Spends I (F x.1.call) x.2) ∧ I s (cs.map Prod.snd).sum := by
  induction hs with
  | start => exact ⟨[], rfl, by simp, h₀⟩
  | env _ he ih =>
    obtain ⟨cs, hcs, hx, hI⟩ := ih
    exact ⟨cs, hcs, hx, henv _ _ _ hI he⟩
  | @call ts s c _ hen ih =>
    obtain ⟨cs, rfl, hx, hI⟩ := ih
    refine ⟨(⟨c, S.arrive c s, S.exec c⟩, n c) :: cs, rfl, ?_, ?_⟩
    · intro x hm
      rcases List.mem_cons.1 hm with rfl | hm
      · exact hexec c
      · exact hx x hm
    · simpa only [List.map_cons, List.sum_cons] using harrive c s _ hI hen
  | @step us vs c a s β f k i _ ih =>
    obtain ⟨cs, hcs, hx, hI⟩ := ih
    obtain ⟨ds, es, rfl, hds, hes⟩ := List.map_eq_append_iff.1 hcs
    obtain ⟨⟨x, m⟩, es, rfl, rfl, rfl⟩ := List.map_eq_cons_iff.1 hes
    have hsum : ∀ l : M, ((ds ++ (⟨c, a, .step f k⟩, l) :: es).map Prod.snd).sum =
        l + ((ds.map Prod.snd).sum + (es.map Prod.snd).sum) := fun l => by
      simp only [List.map_append, List.map_cons, List.sum_append, List.sum_cons]
      exact add_left_comm _ _ _
    have hspend := hx (⟨c, a, .step f k⟩, m) (by simp)
    obtain ⟨m', htrade, hk⟩ := hspend i s _ ((hsum m).symm ▸ hI)
    refine ⟨ds ++ (⟨c, a, match (f i s).1 with
      | .ok b => k b
      | .error e => .ret (.error e)⟩, m') :: es, by rw [List.map_append, hds]; rfl, ?_, ?_⟩
    · intro y hy
      rcases List.mem_append.1 hy with hy | hy
      · exact hx y (List.mem_append_left _ hy)
      · rcases List.mem_cons.1 hy with rfl | hy
        · cases hf : (f i s).1 with
          | ok b => simpa only [hf] using hk
          | error e => simpa only [hf, Prog.spends_ret] using hk
        · exact hx y (List.mem_append_right _ (List.mem_cons_of_mem _ hy))
    · have hI' := htrade _ ((hsum m) ▸ hI)
      simpa only [List.map_append, List.map_cons, List.sum_append, List.sum_cons,
        add_left_comm] using hI'

theorem credits_spent {F : κ → Except ε Unit → M → Prop} {cs : List (Thread ι σ ε κ × M)}
    (hrest : ∀ x ∈ cs, x.1.rest.Spends I (F x.1.call) x.2) (hF : ∀ c m, F c (.ok ()) m → m = 0)
    (hend : ∀ x ∈ cs.map Prod.fst, x.rest = .ret (.ok ())) : (cs.map Prod.snd).sum = 0 := by
  refine List.sum_eq_zero fun m hm => ?_
  obtain ⟨x, hx, rfl⟩ := List.mem_map.1 hm
  have hspends := hrest x hx
  rw [hend x.1 (List.mem_map_of_mem hx)] at hspends
  exact hF _ _ hspends

end System
end Resumption

import InvitationService.Lib.Solo

namespace Resumption

variable {ι σ ε α β : Type} {s : σ}

namespace Prog

variable {p q r : Prog ι σ ε α}

def Agree (p q : Prog ι σ ε α) (s : σ) : Prop := ∀ c, p.run c s = q.run c s

theorem Agree.refl (p : Prog ι σ ε α) : p.Agree p s := fun _ => rfl

theorem Agree.step {f f' : ι → σ → Except ε β × σ} {k k' : β → Prog ι σ ε α}
    (hf : ∀ i, f i s = f' i s) (hk : ∀ i b t, f i s = (.ok b, t) → (k b).Agree (k' b) t) :
    (Prog.step f k).Agree (Prog.step f' k') s := by
  intro c
  rw [run, run, ← hf]
  have hb := hk (c 0)
  generalize f (c 0) s = x at hb ⊢
  obtain ⟨o, t⟩ := x
  cases o with
  | ok b => exact hb b t rfl _
  | error e => rfl

theorem run_bind_error {g : β → Prog ι σ ε α} {p : Prog ι σ ε β} {c : Nat → ι} {e : ε} {t : σ}
    (h : p.run c s = (.error e, t)) : (p >>= g).run c s = (.error e, t) := by
  induction p generalizing c s with
  | ret o =>
    cases h
    rfl
  | step f k ih =>
    rw [step_bind, run]
    rw [run] at h
    generalize f (c 0) s = x at h ⊢
    obtain ⟨o, u⟩ := x
    cases o with
    | ok b => exact ih b h
    | error e' =>
      cases h
      rfl

end Prog

open Prog

variable {g g' : β → Service σ ε α}

theorem agree_perform {b : Block σ ε β} (h : b.Ends (fun a t => (g a).Agree (g' a) t) s) :
    (perform b >>= g).Agree (perform b >>= g') s := by
  refine Agree.step (fun _ => rfl) fun c a t hrun => ?_
  have ha := Post.run h c
  rw [show b.run c s = (.ok a, t) from hrun] at ha
  exact ha

/-- Two transactions that fail alike are undone alike, whatever they did and whatever follows. -/
theorem agree_transaction {undo : σ → σ → σ} {e : ε} {b b' : Block σ ε β}
    (h : ∀ c, ∃ o t t', b.run c s = (.error o, t) ∧ b'.run c s = (.error o, t') ∧
      undo s t = undo s t') :
    (transaction undo e b >>= g).Agree (transaction undo e b' >>= g') s := by
  refine Agree.step (fun c => ?_) fun c a t hrun => ?_
  · obtain ⟨o, t, t', hb, hb', hundo⟩ := h c
    rw [run_bind_error hb, run_bind_error hb']
    exact congrArg _ hundo
  · obtain ⟨o, u, _, hb, _, _⟩ := h c
    rw [run_bind_error hb] at hrun
    cases hrun

end Resumption

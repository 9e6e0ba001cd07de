import InvitationService.Lib.Transaction

namespace Resumption

variable {ι σ ε α γ : Type} {R : σ → σ → Prop} {s t u : σ}

namespace Prog

/-- Run alone, with the same choice of the environment at every step. -/
def solo (c : ι) (p : Prog ι σ ε α) (s : σ) : Except ε α × σ := p.run (fun _ => c) s

section

variable {c : ι} {p : Prog ι σ ε α} {g : α → Prog ι σ ε γ} {a : α} {e : ε}

@[simp] theorem solo_ret (r : Except ε α) : (.ret r : Prog ι σ ε α).solo c s = (r, s) := rfl

theorem solo_step {β : Type} (f : ι → σ → Except ε β × σ) (k : β → Prog ι σ ε α) :
    (step f k).solo c s = match f c s with
      | (.ok b, t) => (k b).solo c t
      | (.error e, t) => (.error e, t) := by
  rw [solo, run]
  rfl

theorem solo_bind : (p >>= g).solo c s = match p.solo c s with
    | (.ok a, t) => (g a).solo c t
    | (.error e, t) => (.error e, t) := by
  induction p generalizing s with
  | ret r => cases r <;> rfl
  | step f k ih =>
    rw [step_bind, solo_step, solo_step]
    generalize f c s = x
    obtain ⟨r, t⟩ := x
    cases r with
    | ok b => exact ih b
    | error e => rfl

theorem solo_bind_ok (h : p.solo c s = (.ok a, t)) : (p >>= g).solo c s = (g a).solo c t := by
  rw [solo_bind, h]

theorem solo_bind_error (h : p.solo c s = (.error e, t)) :
    (p >>= g).solo c s = (.error e, t) := by
  rw [solo_bind, h]

def Succeeds (c : ι) (p : Prog ι σ ε α) (K : α → σ → Prop) (s : σ) : Prop :=
  ∃ a t, p.solo c s = (.ok a, t) ∧ K a t

variable {K : α → σ → Prop} {K' : γ → σ → Prop}

theorem succeeds_of (h : p.solo c s = (.ok a, t)) (hK : K a t) : p.Succeeds c K s := ⟨a, t, h, hK⟩

theorem Succeeds.bind (h : p.Succeeds c (fun a t => (g a).Succeeds c K' t) s) :
    (p >>= g).Succeeds c K' s := by
  obtain ⟨a, t, hp, b, u, hg, hK⟩ := h
  exact ⟨b, u, (solo_bind_ok hp).trans hg, hK⟩

theorem Succeeds.step (h : p.solo c s = (.ok a, t)) (hg : (g a).Succeeds c K' t) :
    (p >>= g).Succeeds c K' s := .bind (succeeds_of h hg)

theorem Succeeds.mono {L : α → σ → Prop} (h : p.Succeeds c K s) (hL : ∀ a t, K a t → L a t) :
    p.Succeeds c L s := by
  obtain ⟨a, t, hp, hK⟩ := h
  exact ⟨a, t, hp, hL a t hK⟩

end
section Exec

variable {p : Prog ι σ ε α} {g : α → Prog ι σ ε γ} {a : α} {e : ε} {r : Except ε γ}

theorem Exec.bind (h : Exec R p s (.ok a) t) (hg : Exec R (g a) t r u) :
    Exec R (p >>= g) s r u := by
  generalize hx : (Except.ok a : Except ε α) = x at h
  induction h with
  | ret =>
    cases hx
    exact hg
  | ok hst hf _ ih => exact .ok hst hf (ih hg hx)
  | error _ _ => cases hx

theorem Exec.bind_error (h : Exec R p s (.error e) t) : Exec R (p >>= g) s (.error e) t := by
  generalize hx : (Except.error e : Except ε α) = x at h
  induction h with
  | ret =>
    cases hx
    exact .ret
  | ok hst hf _ ih => exact .ok hst hf (ih hx)
  | error hst hf =>
    cases hx
    exact .error hst hf

theorem exec_solo (hR : ∀ s, R s s) (c : ι) (h : p.solo c s = (r', t)) : Exec R p s r' t := by
  have hrun := exec_run hR p (fun _ => c) s
  rwa [show p.run (fun _ => c) s = _ from h] at hrun

/-- Without interference, an execution is a run with some choices. -/
theorem Exec.exists_run [Inhabited ι] {r : Except ε α} (h : Exec Eq p s r t) :
    ∃ c, p.run c s = (r, t) := by
  induction h with
  | ret => exact ⟨fun _ => default, rfl⟩
  | @ok β f k i b s t u v r he hf _ ih =>
    subst he
    obtain ⟨c, hc⟩ := ih
    refine ⟨fun n => n.casesOn i c, ?_⟩
    rw [run]
    change (match f i s with
      | (.ok b, t) => (k b).run c t
      | (.error e, t) => (.error e, t)) = _
    rw [hf]
    exact hc
  | @error β f k i e s t u he hf =>
    subst he
    refine ⟨fun _ => i, ?_⟩
    rw [run]
    change (match f i s with
      | (.ok b, t) => (k b).run _ t
      | (.error e, t) => (.error e, t)) = _
    rw [hf]

end Exec

section MayFail

variable {c : ι} {p : Prog ι σ ε α} {g : α → Prog ι σ ε γ} {a : α} {Q : σ → Prop}

def MayFail (R : σ → σ → Prop) (p : Prog ι σ ε α) (Q : σ → Prop) (s : σ) : Prop :=
  ∃ e t, Exec R p s (.error e) t ∧ Q t

theorem MayFail.first (h : p.MayFail R Q s) : (p >>= g).MayFail R Q s := by
  obtain ⟨e, t, hp, hQ⟩ := h
  exact ⟨e, t, hp.bind_error, hQ⟩

theorem MayFail.after (h : Exec R p s (.ok a) t) (hg : (g a).MayFail R Q t) :
    (p >>= g).MayFail R Q s := by
  obtain ⟨e, u, hp, hQ⟩ := hg
  exact ⟨e, u, h.bind hp, hQ⟩

theorem MayFail.of_succeeds (hR : ∀ s, R s s)
    (h : p.Succeeds c (fun a t => (g a).MayFail R Q t) s) : (p >>= g).MayFail R Q s := by
  obtain ⟨a, t, hp, hg⟩ := h
  exact .after (exec_solo hR c hp) hg

theorem MayFail.step (hR : ∀ s, R s s) (h : p.solo c s = (.ok a, t))
    (hg : (g a).MayFail R Q t) : (p >>= g).MayFail R Q s := .after (exec_solo hR c h) hg

end MayFail
end Prog

open Prog

variable {b : Block σ ε α} {e : ε}

namespace Block

@[simp] theorem solo_call {f : σ → Except ε α × σ} : (call e f).solo false s = f s := by
  rw [call, solo_step]
  simp only [Bool.false_eq_true, if_false]
  generalize f s = x
  obtain ⟨r, t⟩ := x
  cases r <;> rfl

@[simp] theorem solo_observe {f : σ → α} :
    (observe f : Block σ ε α).solo false s = (.ok (f s), s) := rfl

@[simp] theorem solo_record {f : σ → σ} :
    (record f : Block σ ε Unit).solo false s = (.ok (), f s) := rfl

end Block

@[simp] theorem solo_perform : (perform b).solo (fun _ => false) s = b.solo false s := by
  rw [perform, solo_step]
  show (match b.solo false s with
    | (.ok a, t) => ((.ret (.ok a) : Service σ ε α)).solo (fun _ => false) t
    | (.error e, t) => (.error e, t)) = _
  generalize b.solo false s = x
  obtain ⟨r, t⟩ := x
  cases r <;> rfl

theorem solo_transaction {undo : σ → σ → σ} :
    (transaction undo e b).solo (fun _ => false) s = match b.solo false s with
      | (.ok a, t) => (.ok a, t)
      | (.error e, t) => (.error e, undo s t) := by
  have hc : (b >>= fun a => Block.call e fun t => (.ok a, t)).run (fun _ => false) s =
      b.solo false s := by
    refine (solo_bind (c := false)).trans ?_
    generalize b.solo false s = x
    obtain ⟨r, t⟩ := x
    cases r with
    | ok a => exact Block.solo_call
    | error e => rfl
  rw [transaction, solo_step, hc]
  generalize b.solo false s = x
  obtain ⟨r, t⟩ := x
  cases r <;> rfl

section Always

variable {p : Service σ ε α} {g : α → Service σ ε γ} {r : Except ε α} {r' : Except ε γ}

theorem Prog.Exec.always_perform
    (h : Exec R ((perform b >>= g).always fun _ => false) s r' t) :
    ∃ u, R s u ∧ match b.solo false u with
      | (.ok a, v) => Exec R ((g a).always fun _ => false) v r' t
      | (.error e, v) => r' = .error e ∧ t = v := by
  cases h with
  | @ok _ _ _ _ _ _ u v _ _ hst hf hk =>
    refine ⟨u, hst, ?_⟩
    rw [show b.solo false u = _ from hf]
    exact hk
  | @error _ _ _ _ _ _ u _ hst hf =>
    refine ⟨u, hst, ?_⟩
    rw [show b.solo false u = _ from hf]
    exact ⟨rfl, rfl⟩

theorem Prog.Exec.always_transaction {undo : σ → σ → σ} {e : ε}
    (h : Exec R ((transaction undo e b).always fun _ => false) s r t) :
    ∃ u, R s u ∧ (transaction undo e b).solo (fun _ => false) u = (r, t) := by
  have hsolo : ∀ u, (transaction undo e b).solo (fun _ => false) u = _ :=
    fun u => run_single (fun _ _ => false)
  cases h with
  | @ok _ _ _ _ _ _ u v _ _ hst hf hk =>
    cases hk
    exact ⟨u, hst, (hsolo u).trans hf⟩
  | @error _ _ _ _ _ _ u _ hst hf => exact ⟨u, hst, (hsolo u).trans hf⟩

end Always

theorem exec_perform (hR : ∀ s, R s s) {a : α} (h : b.solo false s = (.ok a, t)) :
    Exec R (perform b) s (.ok a) t :=
  exec_solo hR (fun _ => false) (solo_perform.trans h)

theorem exec_commits (hR : ∀ s, R s s) {undo : σ → σ → σ} {a : α}
    (h : b.solo false s = (.ok a, t)) : Exec R (transaction undo e b) s (.ok a) t :=
  exec_solo hR (fun _ => false) (by rw [solo_transaction, h])

section MayFail

variable (hR : ∀ s, R s s) {undo : σ → σ → σ} {Q : σ → Prop}

theorem Block.mayFail_call {f : σ → Except ε α × σ} (hQ : Q s) : (Block.call e f).MayFail Eq Q s :=
  ⟨e, s, .error (i := true) rfl rfl, hQ⟩

include hR

theorem mayFail_perform {f : σ → Except ε α × σ} (hQ : Q s) :
    (perform (Block.call e f)).MayFail R Q s :=
  ⟨e, s, .error (i := fun _ => true) (hR s) rfl, hQ⟩

theorem mayFail_run
    (h : (b >>= fun a => Block.call e fun t => (.ok a, t)).MayFail Eq (fun t => Q (undo s t)) s) :
    (transaction undo e b).MayFail R Q s := by
  obtain ⟨e', t, hb, hQ⟩ := h
  obtain ⟨c, hc⟩ := hb.exists_run
  refine ⟨e', _, .error (i := c) (hR s) ?_, hQ⟩
  rw [hc]

theorem mayFail_transaction (h : b.MayFail Eq (fun t => Q (undo s t)) s) :
    (transaction undo e b).MayFail R Q s := mayFail_run hR h.first

theorem mayFail_commit (h : b.Succeeds false (fun _ t => Q (undo s t)) s) :
    (transaction undo e b).MayFail R Q s :=
  mayFail_run hR <| .of_succeeds (fun _ => rfl) <| h.mono fun _ _ hQ => Block.mayFail_call hQ

end MayFail
end Resumption

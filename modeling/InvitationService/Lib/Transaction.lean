import InvitationService.Lib.Resumption

namespace Resumption

variable {ι σ ε α γ : Type} {R A : σ → σ → Prop} {s : σ}

def Prog.Post : Prog ι σ ε α → (Except ε α → σ → Prop) → σ → Prop
  | .ret r, Q, s => Q r s
  | .step f k, Q, s => ∀ i, match (f i s).1 with
    | .ok b => (k b).Post Q (f i s).2
    | .error e => Q (.error e) (f i s).2

theorem Prog.Post.run {p : Prog ι σ ε α} {Q : Except ε α → σ → Prop} (h : p.Post Q s)
    (c : Nat → ι) : Q (p.run c s).1 (p.run c s).2 := by
  induction p generalizing c s with
  | ret r => exact h
  | step f k ih =>
    have hk := h (c 0)
    simp only [Prog.run]
    split
    · rename_i b t hf
      rw [hf] at hk
      exact ih b hk _
    · rename_i e t hf
      rw [hf] at hk
      exact hk

@[simp] theorem Prog.post_ret {r : Except ε α} {Q : Except ε α → σ → Prop} :
    (.ret r : Prog ι σ ε α).Post Q s ↔ Q r s := .rfl

theorem Prog.post_bind {p : Prog ι σ ε α} {g : α → Prog ι σ ε γ}
    {Q : Except ε γ → σ → Prop} :
    (p >>= g).Post Q s ↔ p.Post (fun
      | .ok a, t => (g a).Post Q t
      | .error e, t => Q (.error e) t) s := by
  induction p generalizing s with
  | ret r => cases r <;> exact .rfl
  | step f k ih =>
    refine forall_congr' fun i => ?_
    dsimp only
    cases (f i s).1 with
    | ok b => exact ih b
    | error e => exact .rfl

theorem Prog.Post.mono {p : Prog ι σ ε α} {Q Q' : Except ε α → σ → Prop} (h : p.Post Q s)
    (hQ : ∀ r t, Q r t → Q' r t) : p.Post Q' s := by
  induction p generalizing s with
  | ret r => exact hQ r s h
  | step f k ih =>
    intro i
    have hk := h i
    cases hf : (f i s).1 with
    | ok b => exact ih b (by simpa only [hf] using hk)
    | error e => exact hQ _ _ (by simpa only [hf] using hk)

theorem Prog.Post.and {p : Prog ι σ ε α} {Q Q' : Except ε α → σ → Prop} (h : p.Post Q s)
    (h' : p.Post Q' s) : p.Post (fun r t => Q r t ∧ Q' r t) s := by
  induction p generalizing s with
  | ret r => exact ⟨h, h'⟩
  | step f k ih =>
    intro i
    have hk := h i
    have hk' := h' i
    cases hf : (f i s).1 with
    | ok b => exact ih b (by simpa only [hf] using hk) (by simpa only [hf] using hk')
    | error e => exact ⟨by simpa only [hf] using hk, by simpa only [hf] using hk'⟩

def Prog.Ends (p : Prog ι σ ε α) (K : α → σ → Prop) : σ → Prop :=
  p.Post fun
    | .ok a, t => K a t
    | .error _, _ => True

section Ends

variable {K : α → σ → Prop}

@[simp] theorem Prog.ends_ok {a : α} :
    (.ret (.ok a) : Prog ι σ ε α).Ends K s ↔ K a s := .rfl

@[simp] theorem Prog.ends_error {e : ε} : (.ret (.error e) : Prog ι σ ε α).Ends K s := trivial

@[simp] theorem Prog.ends_bind {p : Prog ι σ ε α} {g : α → Prog ι σ ε γ}
    {K : γ → σ → Prop} :
    (p >>= g).Ends K s ↔ p.Ends (fun a t => (g a).Ends K t) s := by
  refine Prog.post_bind.trans ⟨fun h => h.mono fun r t hr => ?_, fun h => h.mono fun r t hr => ?_⟩
  · cases r with
    | ok a => exact hr
    | error e => trivial
  · cases r with
    | ok a => exact hr
    | error e => trivial

theorem Prog.Ends.mono {p : Prog ι σ ε α} {K' : α → σ → Prop} (h : p.Ends K s)
    (hK : ∀ a t, K a t → K' a t) : p.Ends K' s :=
  Post.mono h fun r t hr => by
    cases r with
    | ok a => exact hK a t hr
    | error e => trivial

theorem Prog.ends_true (p : Prog ι σ ε α) : p.Ends (fun _ _ => True) s := by
  induction p generalizing s with
  | ret r => cases r <;> trivial
  | step f k ih =>
    intro i
    dsimp only
    cases (f i s).1 with
    | ok b => exact ih b
    | error e => trivial

end Ends

def Prog.Moves (S : σ → σ → Prop) (p : Prog ι σ ε α) : Prop :=
  ∀ s, p.Post (fun _ t => S s t) s

section Moves

variable {S : σ → σ → Prop}

theorem Prog.moves_ret (hS : ∀ s, S s s) (r : Except ε α) :
    (.ret r : Prog ι σ ε α).Moves S := fun s => hS s

theorem Prog.Moves.bind {p : Prog ι σ ε α} {g : α → Prog ι σ ε γ}
    (hS : ∀ s t u, S s t → S t u → S s u) (hp : p.Moves S) (hg : ∀ a, (g a).Moves S) :
    (p >>= g).Moves S := fun s =>
  post_bind.2 <| (hp s).mono fun r t hst => by
    cases r with
    | ok a => exact (hg a t).mono fun _ u htu => hS s t u hst htu
    | error e => exact hst

theorem Prog.Moves.mapM' {γ : Type} {g : α → Prog ι σ ε γ} {xs : List α} (hS₀ : ∀ s, S s s)
    (hS : ∀ s t u, S s t → S t u → S s u) (hg : ∀ a, (g a).Moves S) :
    (xs.mapM' g).Moves S := by
  induction xs with
  | nil => exact moves_ret hS₀ _
  | cons x xs ih => exact (hg x).bind hS fun _ => ih.bind hS fun _ => moves_ret hS₀ _

theorem Prog.Moves.forM {g : α → Prog ι σ ε PUnit} {xs : List α} (hS₀ : ∀ s, S s s)
    (hS : ∀ s t u, S s t → S t u → S s u) (hg : ∀ a, (g a).Moves S) :
    (xs.forM g).Moves S := by
  induction xs with
  | nil => exact moves_ret hS₀ _
  | cons x xs ih => exact (hg x).bind hS fun _ => ih

theorem Prog.Moves.ends {p : Prog ι σ ε α} {K : α → σ → Prop} (hp : p.Moves S)
    (h : ∀ a t, S s t → K a t) : p.Ends K s :=
  (hp s).mono fun r t hst => by
    cases r with
    | ok a => exact h a t hst
    | error e => trivial

abbrev Prog.Looks (p : Prog ι σ ε α) : Prop := p.Moves fun s t => t = s

theorem Prog.looks_ret (r : Except ε α) : (.ret r : Prog ι σ ε α).Looks :=
  fun _ => rfl

theorem Prog.Looks.bind {p : Prog ι σ ε α} {g : α → Prog ι σ ε γ} (hp : p.Looks)
    (hg : ∀ a, (g a).Looks) : (p >>= g).Looks :=
  Moves.bind (fun _ _ _ h k => k.trans h) hp hg

theorem Prog.Looks.moves {p : Prog ι σ ε α} (hp : p.Looks) (hS : ∀ s, S s s) : p.Moves S :=
  fun s => (hp s).mono fun _ _ ht => ht ▸ hS s

end Moves

/-- A block of external calls, each of which the environment may let fail. -/
abbrev Block (σ ε : Type) := Prog Bool σ ε

/-- A program that performs blocks; the choice of a step says which of its calls fail. -/
abbrev Service (σ ε : Type) := Prog (Nat → Bool) σ ε

namespace Block

/-- One external call: it fails with `e` and changes nothing, or does what `f` says. -/
def call (e : ε) (f : σ → Except ε α × σ) : Block σ ε α :=
  .step (fun fails s => if fails then (.error e, s) else f s) fun a => .ret (.ok a)

def observe (f : σ → α) : Block σ ε α :=
  .step (fun _ s => (.ok (f s), s)) fun a => .ret (.ok a)

def record (f : σ → σ) : Block σ ε Unit :=
  .step (fun _ s => (.ok (), f s)) fun a => .ret (.ok a)

@[simp] theorem post_call {e : ε} {f : σ → Except ε α × σ} {Q : Except ε α → σ → Prop} :
    (call e f).Post Q s ↔ Q (.error e) s ∧ Q (f s).1 (f s).2 := by
  constructor
  · intro h
    refine ⟨by simpa using h true, ?_⟩
    have hk := h false
    simp only [Bool.false_eq_true, if_false] at hk
    cases hf : (f s).1 with
    | ok b => rw [hf] at hk; exact hk
    | error e => rw [hf] at hk; exact hk
  · rintro ⟨he, hf⟩ (_ | _)
    · simp only [Bool.false_eq_true, if_false]
      cases hr : (f s).1 with
      | ok b => rw [hr] at hf; exact hf
      | error e => rw [hr] at hf; exact hf
    · exact he

@[simp] theorem post_observe {f : σ → α} {Q : Except ε α → σ → Prop} :
    (observe f : Block σ ε α).Post Q s ↔ Q (.ok (f s)) s :=
  ⟨fun h => h true, fun h _ => h⟩

@[simp] theorem post_record {f : σ → σ} {Q : Except ε Unit → σ → Prop} :
    (record f : Block σ ε Unit).Post Q s ↔ Q (.ok ()) (f s) :=
  ⟨fun h => h true, fun h _ => h⟩

@[simp] theorem ends_call {e : ε} {f : σ → Except ε α × σ} {K : α → σ → Prop} :
    (call e f).Ends K s ↔ ∀ a, (f s).1 = .ok a → K a (f s).2 := by
  refine post_call.trans ⟨fun h a ha => ?_, fun h => ⟨trivial, ?_⟩⟩
  · have := h.2
    rw [ha] at this
    exact this
  · cases hf : (f s).1 with
    | ok a => exact h a hf
    | error e => trivial

@[simp] theorem ends_observe {f : σ → α} {K : α → σ → Prop} :
    (observe f : Block σ ε α).Ends K s ↔ K (f s) s := post_observe

@[simp] theorem ends_record {f : σ → σ} {K : Unit → σ → Prop} :
    (record f : Block σ ε Unit).Ends K s ↔ K () (f s) := post_record

section Moves

variable {S : σ → σ → Prop}

theorem moves_call {e : ε} {f : σ → Except ε α × σ} (h : ∀ s, S s s) (hf : ∀ s, S s (f s).2) :
    (call e f).Moves S := fun s => post_call.2 ⟨h s, hf s⟩

theorem looks_call {e : ε} {f : σ → Except ε α × σ} (hf : ∀ s, (f s).2 = s) : (call e f).Looks :=
  moves_call (fun _ => rfl) hf

theorem moves_observe {f : σ → α} (h : ∀ s, S s s) : (observe f : Block σ ε α).Moves S :=
  fun s => post_observe.2 (h s)

theorem moves_record {f : σ → σ} (h : ∀ s, S s (f s)) : (record f : Block σ ε Unit).Moves S :=
  fun s => post_record.2 (h s)

end Moves
end Block

/-- A block as one atomic step, without rollback. -/
def perform (b : Block σ ε α) : Service σ ε α :=
  .step (fun c s => b.run c s) fun a => .ret (.ok a)

instance : MonadLift (Block σ ε) (Service σ ε) where
  monadLift := perform

/-- A block as one atomic transaction.  Its last call is the commit, which fails
with `e`; when any call fails or an exception is thrown, `undo` takes the state
back, from where the transaction began and where it stopped. -/
def transaction (undo : σ → σ → σ) (e : ε) (b : Block σ ε α) : Service σ ε α :=
  .step (fun c s =>
    match (b >>= fun a => Block.call e fun t => (.ok a, t)).run c s with
    | (.ok a, t) => (.ok a, t)
    | (.error e, t) => (.error e, undo s t)) fun a => .ret (.ok a)

@[simp] theorem liftM_eq (b : Block σ ε α) : (liftM b : Service σ ε α) = perform b := rfl

@[simp] theorem monadLift_eq (b : Block σ ε α) :
    (MonadLiftT.monadLift b : Service σ ε α) = perform b := rfl

theorem run_single {ι : Type} {f : ι → σ → Except ε α × σ} (c : Nat → ι) :
    (Prog.step f fun a => .ret (.ok a)).run c s = f (c 0) s := by
  rw [Prog.run]
  generalize f (c 0) s = x
  obtain ⟨r, t⟩ := x
  cases r <;> rfl

theorem guarantees_single {ι : Type} {f : ι → σ → Except ε α × σ} {Q : Except ε α → σ → Prop}
    (h : ∀ c t, R s t → A t (f c t).2 ∧ Q (f c t).1 (f c t).2) :
    (Prog.step f fun a => .ret (.ok a)).Guarantees R A Q s := by
  intro c t hst
  obtain ⟨ha, hq⟩ := h c t hst
  refine ⟨ha, ?_⟩
  cases hr : (f c t).1 with
  | ok a => rw [hr] at hq; exact hq
  | error e => rw [hr] at hq; exact hq

theorem guarantees_perform {b : Block σ ε α} {Q : Except ε α → σ → Prop}
    (h : ∀ t, R s t → b.Post (fun r u => A t u ∧ Q r u) t) :
    (perform b).Guarantees R A Q s :=
  guarantees_single fun c t hst => (h t hst).run c

/-- The whole block satisfies `A` in one step: with its effects when it commits,
with what `undo` leaves when it does not. -/
theorem guarantees_transaction {undo : σ → σ → σ} {e : ε} {b : Block σ ε α}
    {Q : Except ε α → σ → Prop}
    (h : ∀ t, R s t → b.Post (fun
      | .ok a, u => (A t u ∧ Q (.ok a) u) ∧ A t (undo t u) ∧ Q (.error e) (undo t u)
      | .error e', u => A t (undo t u) ∧ Q (.error e') (undo t u)) t) :
    (transaction undo e b).Guarantees R A Q s := by
  intro c t hst
  have hb : (b >>= fun a => Block.call e fun u => (.ok a, u)).Post (fun
      | .ok a, u => A t u ∧ Q (.ok a) u
      | .error e', u => A t (undo t u) ∧ Q (.error e') (undo t u)) t := by
    refine Prog.post_bind.2 ((h t hst).mono fun r u hr => ?_)
    cases r with
    | ok a => exact Block.post_call.2 ⟨hr.2, hr.1⟩
    | error e' => exact hr
  have hq := hb.run c
  dsimp only
  split
  · rename_i a u hu
    rw [hu] at hq
    exact hq
  · rename_i e' u hu
    rw [hu] at hq
    exact hq

theorem guarantees_transaction_of_ends {undo : σ → σ → σ} {e : ε} {b : Block σ ε α}
    {Q : Except ε α → σ → Prop} (hb : ∀ t, R s t → b.Ends (fun a u => Q (.ok a) u) t)
    (hundo : ∀ t u e, R s t → Q (.error e) (undo t u)) :
    (transaction undo e b).Guarantees R (fun _ _ => True) Q s :=
  guarantees_transaction fun t hst => Prog.Post.mono (hb t hst) fun r u hr => by
    cases r with
    | ok a => exact ⟨⟨trivial, hr⟩, trivial, hundo t u e hst⟩
    | error e' => exact ⟨trivial, hundo t u e' hst⟩

theorem post_transaction {undo : σ → σ → σ} {e : ε} {b : Block σ ε α} {K : α → σ → Prop}
    (hb : b.Ends K s) : (transaction undo e b).Post (fun
      | .ok a, u => K a u
      | .error _, u => ∃ t, u = undo s t) s := by
  intro c
  have hc : (b >>= fun a => Block.call e fun u => (.ok a, u)).Ends K s := by
    refine Prog.ends_bind.2 (hb.mono fun a u hu => Block.ends_call.2 fun x hx => ?_)
    cases hx
    exact hu
  have hrun := hc.run c
  dsimp only at hrun ⊢
  generalize (b >>= fun a => Block.call e fun u => (.ok a, u)).run c s = x at hrun ⊢
  obtain ⟨r, u⟩ := x
  cases r with
  | ok a => exact hrun
  | error e' => exact ⟨u, rfl⟩

def Prog.Refuses (p : Prog ι σ ε α) (s : σ) : Prop :=
  p.Post (fun r t => (∃ e, r = .error e) ∧ t = s) s

theorem Prog.refuses_error {e : ε} : (.ret (.error e) : Prog ι σ ε α).Refuses s :=
  ⟨⟨e, rfl⟩, rfl⟩

theorem Prog.refuses_of_ends {p : Prog ι σ ε α} (hp : p.Looks)
    (h : p.Ends (fun _ _ => False) s) : p.Refuses s :=
  ((hp s).and h).mono fun r t hr => by
    cases r with
    | ok a => exact hr.2.elim
    | error e => exact ⟨⟨e, rfl⟩, hr.1⟩

theorem Prog.Refuses.bind {p : Prog ι σ ε α} {g : α → Prog ι σ ε γ} (h : p.Refuses s) :
    (p >>= g).Refuses s :=
  post_bind.2 <| h.mono fun r t hr => by
    obtain ⟨⟨e, rfl⟩, rfl⟩ := hr
    exact ⟨⟨e, rfl⟩, rfl⟩

theorem Prog.refuses_bind {p : Prog ι σ ε α} {g : α → Prog ι σ ε γ}
    (hp : p.Looks) (h : p.Ends (fun a t => (g a).Refuses t) s) :
    (p >>= g).Refuses s :=
  post_bind.2 <| ((hp s).and h).mono fun r t hr => by
    obtain ⟨rfl, hr⟩ := hr
    cases r with
    | ok a => exact hr
    | error e => exact ⟨⟨e, rfl⟩, rfl⟩

theorem guarantees_transaction_of_refuses {undo : σ → σ → σ} {e : ε} {b : Block σ ε α}
    (hundo : ∀ t, undo t t = t) (h : ∀ t, R s t → b.Refuses t) :
    (transaction undo e b).Guarantees R (fun s t => t = s) (fun r _ => ∃ e, r = .error e) s :=
  guarantees_transaction fun t hst => (h t hst).mono fun r u hr => by
    obtain ⟨⟨e', rfl⟩, rfl⟩ := hr
    exact ⟨hundo _, e', rfl⟩

theorem within_perform {b : Block σ ε α} {K : α → σ → Prop}
    (h : ∀ t, R s t → b.Post (fun
      | .ok a, u => A t u ∧ K a u
      | .error _, u => A t u) t) :
    (perform b).Within R A K s :=
  guarantees_perform fun t hst => (h t hst).mono fun r u hr => by
    cases r with
    | ok a => exact hr
    | error e => exact ⟨hr, trivial⟩

theorem within_perform_of_moves {b : Block σ ε α} {S : σ → σ → Prop} {K : α → σ → Prop}
    (hS : b.Moves S) (hA : ∀ t u, S t u → A t u)
    (h : ∀ t, R s t → b.Ends (fun a u => S t u → K a u) t) : (perform b).Within R A K s :=
  within_perform fun t hst => (hS t |>.and (h t hst)).mono fun r u hr => by
    cases r with
    | ok a => exact ⟨hA t u hr.1, hr.2 hr.1⟩
    | error e => exact hA t u hr.1

theorem within_transaction {undo : σ → σ → σ} {e : ε} {b : Block σ ε α} {S : σ → σ → Prop}
    {K : α → σ → Prop} (hS : b.Moves S) (hundo : ∀ t u, S t u → A t (undo t u))
    (h : ∀ t, R s t → b.Ends (fun a u => S t u → A t u ∧ K a u) t) :
    (transaction undo e b).Within R A K s :=
  guarantees_transaction fun t hst => (hS t |>.and (h t hst)).mono fun r u hr => by
    cases r with
    | ok a => exact ⟨hr.2 hr.1, hundo t u hr.1, trivial⟩
    | error e => exact ⟨hundo t u hr.1, trivial⟩

section Drifts

variable {S : σ → σ → Prop} (hS : ∀ s t u, S s t → S t u → S s u) (hR : ∀ s t, R s t → S s t)
  {b : Block σ ε α}

include hS hR

theorem drifts_perform (hb : b.Moves S) : (perform b).Drifts R S := fun s =>
  guarantees_perform fun t hst => (hb t).mono fun _ u htu => ⟨trivial, hS s t u (hR s t hst) htu⟩

theorem drifts_transaction {undo : σ → σ → σ} {e : ε} (hb : b.Moves S)
    (hundo : ∀ t u, S t u → S t (undo t u)) : (transaction undo e b).Drifts R S := fun s =>
  guarantees_transaction fun t hst => (hb t).mono fun r u htu => by
    have hu := hS s t u (hR s t hst) htu
    have hundo := hS s t _ (hR s t hst) (hundo t u htu)
    cases r with
    | ok a => exact ⟨⟨trivial, hu⟩, trivial, hundo⟩
    | error e' => exact ⟨trivial, hundo⟩

theorem guarantees_perform_bind {g : α → Service σ ε γ} {Q : Except ε γ → σ → Prop} {s₀ : σ}
    (hb : b.Moves S) (hs : S s₀ s) (herr : ∀ e u, S s₀ u → Q (.error e) u)
    (h : ∀ t, S s₀ t → b.Ends (fun a u => S s₀ u →
      (g a).Guarantees R (fun _ _ => True) Q u) t) :
    (perform b >>= g).Guarantees R (fun _ _ => True) Q s :=
  Prog.Guarantees.bind <| guarantees_perform fun t hst => by
    have ht := hS s₀ s t hs (hR s t hst)
    refine ((hb t).and (h t ht)).mono fun r u hr => ⟨trivial, ?_⟩
    have hu := hS s₀ t u ht hr.1
    cases r with
    | ok a => exact hr.2 hu
    | error e => exact herr e u hu

end Drifts
section Avoids

variable {D : ε → Prop} {b : Block σ ε α}

namespace Block

theorem avoids_call {e : ε} {f : σ → Except ε α × σ}
    (hf : ∀ s e, (f s).1 = .error e → ¬ D e) : (call e f).Avoids false D := fun s => by
  simp only [Bool.false_eq_true, if_false]
  split
  · trivial
  · rename_i e he
    exact hf s e he

theorem avoids_observe {f : σ → α} : (observe f : Block σ ε α).Avoids false D := fun _ => trivial

theorem avoids_record {f : σ → σ} : (record f : Block σ ε Unit).Avoids false D := fun _ => trivial

end Block

theorem Prog.Avoids.run {ι : Type} {p : Prog ι σ ε α} {c : ι} (hp : p.Avoids c D) (s : σ) :
    ∀ e, (p.run (fun _ => c) s).1 = .error e → ¬ D e := by
  rw [← Prog.run_always (fun _ => ())]
  exact (Prog.exec_run (R := fun _ _ => True) (fun _ => trivial) _ _ s).avoids hp

theorem avoids_perform (hb : b.Avoids false D) :
    (perform b).Avoids (fun _ => false) D := fun s => by
  split
  · trivial
  · exact hb.run s _ ‹_›

theorem avoids_transaction {undo : σ → σ → σ} {e : ε} (hb : b.Avoids false D) :
    (transaction undo e b).Avoids (fun _ => false) D := fun s => by
  have hcommit : (b >>= fun a => Block.call e fun t => (.ok a, t)).Avoids false D :=
    hb.bind fun _ => Block.avoids_call fun _ _ => nofun
  have hrun := hcommit.run s
  dsimp only at hrun ⊢
  split
  · trivial
  · rename_i e' h
    split at h
    · cases h
    · rename_i he
      cases h
      exact hrun _ (by rw [he])

end Avoids
section Spares

variable {D : ε → Prop} {b : Block σ ε α}

theorem Block.spares_call {e : ε} {f : σ → Except ε α × σ} (he : ¬ D e)
    (hf : ∀ s e, (f s).1 = .error e → ¬ D e) : (Block.call e f).Spares D := fun i s => by
  cases i with
  | true => exact he
  | false =>
    simp only [Bool.false_eq_true, if_false]
    split
    · trivial
    · exact hf s _ ‹_›

theorem Prog.Spares.post {ι : Type} {p : Prog ι σ ε α} (hp : p.Spares D) {s : σ} :
    p.Post (fun r _ => ∀ e, r = .error e → ¬ D e) s := by
  induction p generalizing s with
  | ret r =>
    cases r with
    | ok a => exact nofun
    | error e => exact fun _ he => by cases he; exact hp
  | step f k ih =>
    intro i
    have hs := hp i s
    cases hf : (f i s).1 with
    | ok b => exact ih b (by simpa only [hf] using hs)
    | error e => exact fun _ he => by cases he; simpa only [hf] using hs

theorem Prog.Spares.run {ι : Type} {p : Prog ι σ ε α} (hp : p.Spares D) (c : Nat → ι) (s : σ) :
    ∀ e, (p.run c s).1 = .error e → ¬ D e := hp.post.run c

theorem spares_perform (hb : b.Spares D) : (perform b).Spares D := fun c s => by
  split
  · trivial
  · exact hb.run c s _ ‹_›

end Spares
end Resumption

import InvitationService.Lib.System
import InvitationService.Lib.Transaction
import Mathlib.Data.Set.Insert

namespace Resumption

/-! Invariants that look back: what holds of a state in view of the moments its run has passed
through. -/

section

variable {ι σ ε α γ : Type} {J : Set σ → σ → Prop} {H : Set σ}

namespace Prog

def Recalls (J : Set σ → σ → Prop) (Q : Except ε α → Set σ → Prop) : Prog ι σ ε α → Set σ → Prop
  | .ret r, H => Q r H
  | .step f k, H => ∀ i s G, H ⊆ G → s ∈ G → J G s →
      J (insert (f i s).2 G) (f i s).2 ∧ match (f i s).1 with
      | .ok b => (k b).Recalls J Q (insert (f i s).2 G)
      | .error e => Q (.error e) (insert (f i s).2 G)

variable {p : Prog ι σ ε α} {Q Q' : Except ε α → Set σ → Prop}

@[simp] theorem recalls_ret {r : Except ε α} : (.ret r : Prog ι σ ε α).Recalls J Q H ↔ Q r H := .rfl

theorem Recalls.weaken (h : p.Recalls J Q H) (hQ : ∀ r G, H ⊆ G → Q r G → Q' r G) :
    p.Recalls J Q' H := by
  induction p generalizing H with
  | ret r => exact hQ r H subset_rfl h
  | step f k ih =>
    intro i s G hG hs hJ
    obtain ⟨hJ', hk⟩ := h i s G hG hs hJ
    have hsub : H ⊆ insert (f i s).2 G := hG.trans (Set.subset_insert _ _)
    refine ⟨hJ', ?_⟩
    cases hf : (f i s).1 with
    | ok b => exact ih b (by simpa only [hf] using hk) fun r G' hG' => hQ r G' (hsub.trans hG')
    | error e => exact hQ _ _ hsub (by simpa only [hf] using hk)

theorem Recalls.bind {Q : Except ε γ → Set σ → Prop} {g : α → Prog ι σ ε γ}
    (h : p.Recalls J (fun
      | .ok a, G => (g a).Recalls J Q G
      | .error e, G => Q (.error e) G) H) : (p >>= g).Recalls J Q H := by
  induction p generalizing H with
  | ret r =>
    cases r with
    | ok a => exact h
    | error e => exact h
  | step f k ih =>
    intro i s G hG hs hJ
    obtain ⟨hJ', hk⟩ := h i s G hG hs hJ
    refine ⟨hJ', ?_⟩
    cases hf : (f i s).1 with
    | ok b => exact ih b (by simpa only [hf] using hk)
    | error e => simpa only [hf] using hk

theorem Recalls.attempt {Q : Except ε (Except ε α) → Set σ → Prop}
    (h : p.Recalls J (fun r G => Q (.ok r) G) H) : p.attempt.Recalls J Q H := by
  induction p generalizing H with
  | ret r => exact h
  | step f k ih =>
    simp only [Prog.attempt, Recalls] at h ⊢
    intro i s G hG hs hJ
    obtain ⟨hJ', hk⟩ := h i s G hG hs hJ
    refine ⟨hJ', ?_⟩
    cases hf : (f i s).1 with
    | ok b => exact ih b (by simpa only [hf] using hk)
    | error e => simpa only [hf, recalls_ret] using hk

theorem Recalls.tryCatch {handler : ε → Prog ι σ ε α}
    (h : p.Recalls J (fun
      | .ok a, G => Q (.ok a) G
      | .error e, G => (handler e).Recalls J Q G) H) :
    (MonadExcept.tryCatch p handler).Recalls J Q H :=
  Recalls.bind <| Recalls.attempt <| h.weaken fun r G _ hr => by
    cases r with
    | ok a => exact hr
    | error e => exact hr

end Prog

theorem recalls_perform {b : Block σ ε α} {Q : Except ε α → Set σ → Prop}
    (h : ∀ s G, H ⊆ G → s ∈ G → J G s →
      b.Post (fun r t => J (insert t G) t ∧ Q r (insert t G)) s) :
    (perform b).Recalls J Q H := by
  intro c s G hG hs hJ
  obtain ⟨hJ', hQ⟩ := (h s G hG hs hJ).run c
  refine ⟨hJ', ?_⟩
  cases hr : (b.run c s).1 with
  | ok a => rw [hr] at hQ; exact hQ
  | error e => rw [hr] at hQ; exact hQ

theorem recalls_look {b : Block σ ε α} {g : α → Service σ ε γ} {Q : Except ε γ → Set σ → Prop}
    (hb : b.Looks) (h : ∀ s G, H ⊆ G → s ∈ G → J G s →
      b.Post (fun r _ => match r with
        | .ok a => (g a).Recalls J Q G
        | .error e => Q (.error e) G) s) :
    (perform b >>= g).Recalls J Q H := by
  refine Prog.Recalls.bind <| recalls_perform fun s G hG hs hJ =>
    ((hb s).and (h s G hG hs hJ)).mono ?_
  rintro r t ⟨rfl, hr⟩
  rw [Set.insert_eq_of_mem hs]
  cases r with
  | ok a => exact ⟨hJ, hr⟩
  | error e => exact ⟨hJ, hr⟩

end

namespace System

variable {ι σ ε κ : Type} {S : System ι σ ε κ} {J : Set σ → σ → Prop} {C : κ → Prop} {G : Set σ}

def history (S : System ι σ ε κ) (s₀ : σ) (ts : List (Thread ι σ ε κ)) (s : σ) : Set σ :=
  {u | S.Passed s₀ u ts s}

def AllRecall (J : Set σ → σ → Prop) (C : κ → Prop) (G : Set σ)
    (ts : List (Thread ι σ ε κ)) : Prop :=
  ∀ x ∈ ts, C x.call → ∃ H ⊆ G, x.rest.Recalls J (fun _ _ => True) H

theorem AllRecall.mono {G' : Set σ} {ts : List (Thread ι σ ε κ)} (h : AllRecall J C G ts)
    (hG : G ⊆ G') : AllRecall J C G' ts := fun x hx hC =>
  (h x hx hC).imp fun _ hH => ⟨hH.1.trans hG, hH.2⟩

theorem AllRecall.advance {us vs : List (Thread ι σ ε κ)} {x y : Thread ι σ ε κ}
    (h : AllRecall J C G (us ++ x :: vs))
    (hy : C y.call → ∃ H ⊆ G, y.rest.Recalls J (fun _ _ => True) H) :
    AllRecall J C G (us ++ y :: vs) := by
  intro z hz
  rcases List.mem_append.1 hz with hz | hz
  · exact h z (List.mem_append_left _ hz)
  · rcases List.mem_cons.1 hz with rfl | hz
    · exact hy
    · exact h z (List.mem_append_right _ (List.mem_cons_of_mem _ hz))

/-- What the calls in `C` keep in view of the past, and the others keep anyway, holds throughout,
whatever the interleaving. -/
theorem Interleaved.recalled {s₀ s : σ} {ts : List (Thread ι σ ε κ)}
    (hs : S.Interleaved s₀ ts s) (h₀ : J {s₀} s₀)
    (henv : ∀ G s t, s ∈ G → J G s → S.env s t → J (insert t G) t)
    (harrive : ∀ G c s, s ∈ G → J G s → S.enabled c s → J (insert (S.arrive c s) G) (S.arrive c s))
    (hexec : ∀ c s, C c → (S.exec c).Recalls J (fun _ _ => True) {S.arrive c s})
    (hstep : ∀ us vs c a s (β : Type) (f : ι → σ → Except ε β × σ) (k : β → Prog ι σ ε Unit) i G,
      ¬ C c → S.Interleaved s₀ (us ++ ⟨c, a, .step f k⟩ :: vs) s → s ∈ G → J G s →
      J (insert (f i s).2 G) (f i s).2) :
    ∃ G ⊆ S.history s₀ ts s, s ∈ G ∧ J G s ∧ AllRecall J C G ts := by
  induction hs with
  | start =>
    exact ⟨{s₀}, Set.singleton_subset_iff.2 (show S.Passed _ _ _ _ from .here .start), rfl, h₀,
      fun x hx => absurd hx List.not_mem_nil⟩
  | @env ts s t hs he ih =>
    obtain ⟨G, hG, hsG, hJ, hts⟩ := ih
    refine ⟨insert t G, ?_, Set.mem_insert _ _, henv _ _ _ hsG hJ he,
      hts.mono (Set.subset_insert _ _)⟩
    exact Set.insert_subset (show S.Passed _ _ _ _ from .here (hs.env he)) fun u hu =>
      show S.Passed _ _ _ _ from .env (hG hu) he
  | @call ts s c hs hen ih =>
    obtain ⟨G, hG, hsG, hJ, hts⟩ := ih
    refine ⟨insert (S.arrive c s) G, ?_, Set.mem_insert _ _, harrive _ _ _ hsG hJ hen, ?_⟩
    · exact Set.insert_subset (show S.Passed _ _ _ _ from .here (hs.call hen)) fun u hu =>
        show S.Passed _ _ _ _ from .call (hG hu) hen
    · intro x hx hC
      rcases List.mem_cons.1 hx with rfl | hx
      · exact ⟨_, Set.singleton_subset_iff.2 (Set.mem_insert _ _), hexec c s hC⟩
      · exact hts.mono (Set.subset_insert _ _) x hx hC
  | @step us vs c a s β f k i hs ih =>
    obtain ⟨G, hG, hsG, hJ, hts⟩ := ih
    have hsub : insert (f i s).2 G ⊆ S.history s₀ _ (f i s).2 :=
      Set.insert_subset (show S.Passed _ _ _ _ from .here (hs.step i)) fun u hu =>
        show S.Passed _ _ _ _ from .step i (hG hu)
    refine ⟨insert (f i s).2 G, hsub, Set.mem_insert _ _, ?_, ?_⟩
    · by_cases hC : C c
      · obtain ⟨H, hH, hr⟩ := hts ⟨c, a, .step f k⟩ (by simp) hC
        exact (hr i s G hH hsG hJ).1
      · exact hstep us vs c a s β f k i G hC hs hsG hJ
    · refine (hts.mono (Set.subset_insert _ _)).advance fun hC => ?_
      obtain ⟨H, hH, hr⟩ := hts ⟨c, a, .step f k⟩ (by simp) hC
      obtain ⟨-, hk⟩ := hr i s G hH hsG hJ
      refine ⟨_, subset_rfl, ?_⟩
      cases hf : (f i s).1 with
      | ok b => simpa only [hf] using hk
      | error e => trivial

end System
end Resumption

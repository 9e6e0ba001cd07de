import InvitationService.Lib.System

namespace Resumption.System

/-! One call that relies on more than the others do: as long as they keep to `N`, it brings `J`
about by its own steps. -/

variable {ι σ ε κ : Type} {S : System ι σ ε κ} {I J : σ → Prop} {N : σ → σ → Prop}
  {C : κ → Prop} {D : κ → σ → Prop} {Q : Except ε Unit → σ → Prop} {s₀ s t : σ}
  {ts us vs : List (Thread ι σ ε κ)} {x : Thread ι σ ε κ}

def Single (C : κ → Prop) (calls : List κ) : Prop := calls.Pairwise fun c d => C c → ¬ C d

theorem Single.others {c : κ} {us vs : List κ} (h : Single C (us ++ c :: vs)) (hc : C c) :
    ∀ d ∈ us ++ vs, ¬ C d := by
  obtain ⟨-, hvs, hus⟩ := List.pairwise_append.1 h
  intro d hd
  rcases List.mem_append.1 hd with hd | hd
  · exact fun hC => hus d hd c List.mem_cons_self hC hc
  · exact (List.pairwise_cons.1 hvs).1 d hd hc

def Thread.Amid (J : σ → Prop) (N : σ → σ → Prop) (Q : Except ε Unit → σ → Prop)
    (x : Thread ι σ ε κ) (s : σ) : Prop :=
  ∃ u, J u ∧ N u s ∧ x.rest.Guarantees N (fun _ t => J t) Q u

theorem Thread.Amid.move (htrans : ∀ s t u, N s t → N t u → N s u) (h : x.Amid J N Q s)
    (hst : N s t) : x.Amid J N Q t := by
  obtain ⟨u, hJ, hus, hg⟩ := h
  exact ⟨u, hJ, htrans _ _ _ hus hst, hg⟩

theorem Interleaved.amid (hs : S.Interleaved s₀ ts s) (hrefl : ∀ s, N s s)
    (htrans : ∀ s t u, N s t → N t u → N s u) (henv : ∀ s t, S.env s t → N s t)
    (harrive : ∀ c s, N s (S.arrive c s))
    (hstep : ∀ us vs c a s (β : Type) (f : ι → σ → Except ε β × σ) (k : β → Prog ι σ ε Unit) i,
      D c a → S.Interleaved s₀ (us ++ ⟨c, a, .step f k⟩ :: vs) s →
      (∀ u, S.Passed s₀ u (us ++ ⟨c, a, .step f k⟩ :: vs) s → I u) → N s (f i s).2)
    (hexec : ∀ c s, C c → N s₀ s → J (S.arrive c s) ∧
      (S.exec c).Guarantees N (fun _ t => J t) Q (S.arrive c s))
    (hone : Single C (ts.map (·.call))) (hD : ∀ x ∈ ts, ¬ C x.call → D x.call x.start)
    (hI : ∀ u, S.Passed s₀ u ts s → I u) :
    ((∀ x ∈ ts, ¬ C x.call) → N s₀ s) ∧ ∀ x ∈ ts, C x.call → x.Amid J N Q s := by
  induction hs with
  | start => exact ⟨fun _ => hrefl _, by simp⟩
  | @env ts s t _ he ih =>
    obtain ⟨hnone, hsome⟩ := ih hone hD fun u hu => hI u (hu.env he)
    exact ⟨fun h => htrans _ _ _ (hnone h) (henv s t he),
      fun x hx hC => (hsome x hx hC).move htrans (henv s t he)⟩
  | @call ts s c _ hen ih =>
    obtain ⟨hc, hts⟩ := List.pairwise_cons.1 hone
    obtain ⟨hnone, hsome⟩ := ih hts (fun x hx => hD x (List.mem_cons_of_mem _ hx))
      fun u hu => hI u (hu.call hen)
    refine ⟨fun h => htrans _ _ _ (hnone fun x hx => h x (List.mem_cons_of_mem _ hx)) (harrive c s),
      fun x hx hC => ?_⟩
    rcases List.mem_cons.1 hx with rfl | hx
    · obtain ⟨hJ, hg⟩ := hexec c s hC (hnone fun y hy => hc y.call (List.mem_map_of_mem hy) hC)
      exact ⟨_, hJ, hrefl _, hg⟩
    · exact (hsome x hx hC).move htrans (harrive c s)
  | @step us vs c a s β f k i hs ih =>
    have hlift : ∀ {P : Thread ι σ ε κ → Prop} {y z : Thread ι σ ε κ},
        (∀ x ∈ us ++ y :: vs, P x) → (P y → P z) → ∀ x ∈ us ++ z :: vs, P x := by
      intro P y z h hyz x hx
      rcases List.mem_append.1 hx with hx | hx
      · exact h x (List.mem_append_left _ hx)
      · rcases List.mem_cons.1 hx with rfl | hx
        · exact hyz (h y (by simp))
        · exact h x (by simp [hx])
    rw [List.map_append, List.map_cons] at hone
    have hone' : Single C ((us ++ ⟨c, a, .step f k⟩ :: vs : List (Thread ι σ ε κ)).map
      (·.call)) := by
      rwa [List.map_append, List.map_cons]
    have hD' : ∀ x ∈ us ++ ⟨c, a, .step f k⟩ :: vs, ¬ C x.call → D x.call x.start := hlift hD id
    obtain ⟨hnone, hsome⟩ := ih hone' hD' fun u hu => hI u (hu.step i)
    by_cases hC : C c
    · -- the one call in `C` goes on from where the others' moves have led
      obtain ⟨u, -, hus, hg⟩ := hsome ⟨c, a, .step f k⟩ (by simp) hC
      obtain ⟨hJ, hk⟩ := hg i s hus
      refine ⟨fun h => absurd hC (h _ (List.mem_append_right _ List.mem_cons_self)),
        fun x hx hx' => ?_⟩
      have hothers := hone.others hC
      rcases List.mem_append.1 hx with hx | hx
      · exact absurd hx' (hothers _ (List.mem_append_left _ (List.mem_map_of_mem hx)))
      · rcases List.mem_cons.1 hx with rfl | hx
        · refine ⟨_, hJ, hrefl _, ?_⟩
          dsimp only
          cases hf : (f i s).1 with
          | ok b => simpa only [hf] using hk
          | error e => simpa only [hf, Prog.guarantees_ret] using hk
        · exact absurd hx' (hothers _ (List.mem_append_right _ (List.mem_map_of_mem hx)))
    · -- another call moves along `N`, which the call in `C` takes as interference
      have hmove : N s (f i s).2 := hstep us vs c a s β f k i
        (hD' _ (List.mem_append_right _ List.mem_cons_self) hC) hs
        fun u hu => hI u (hu.step i)
      refine ⟨fun h => htrans _ _ _ (hnone (hlift h id)) hmove, ?_⟩
      exact hlift (fun x hx hx' => (hsome x hx hx').move htrans hmove) fun _ hx => absurd hx hC

end Resumption.System

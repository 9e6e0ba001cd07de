import InvitationService.Lib.System
import InvitationService.Lib.Transaction
import Mathlib.Data.List.Basic

namespace Resumption

/-! A system that is one component of a larger one. -/

structure Part (τ σ : Type) where
  get : τ → σ
  set : σ → τ → τ
  get_set : ∀ s t, get (set s t) = s
  set_get : ∀ t, set (get t) t = t
  set_set : ∀ s s' t, set s (set s' t) = set s t

variable {ι τ σ ε α γ κ κ' : Type} (P : Part τ σ)

namespace Prog

/-- The program at work on a part of the state. -/
def zoom : Prog ι σ ε α → Prog ι τ ε α
  | .ret r => .ret r
  | .step f k => .step (fun i t => ((f i (P.get t)).1, P.set (f i (P.get t)).2 t))
      fun b => (k b).zoom

@[simp] theorem zoom_ret (r : Except ε α) : (.ret r : Prog ι σ ε α).zoom P = .ret r := rfl

theorem post_zoom {p : Prog ι σ ε α} {Q : Except ε α → τ → Prop} {t : τ} :
    (p.zoom P).Post Q t ↔ p.Post (fun r s => Q r (P.set s t)) (P.get t) := by
  induction p generalizing t with
  | ret r => simp only [zoom, post_ret, P.set_get]
  | step f k ih =>
    refine forall_congr' fun i => ?_
    dsimp only
    cases (f i (P.get t)).1 with
    | ok b => exact ih b |>.trans (by simp only [P.get_set, P.set_set])
    | error e => exact .rfl

def Spectates (p : Prog ι τ ε α) : Prop :=
  ∀ s, p.Guarantees (fun _ _ => True) (fun s t => P.get t = P.get s) (fun _ _ => True) s

variable {P} {p : Prog ι τ ε α}

theorem spectates_ret (r : Except ε α) : (.ret r : Prog ι τ ε α).Spectates P := fun _ => trivial

theorem Spectates.bind {g : α → Prog ι τ ε γ} (hp : p.Spectates P) (hg : ∀ a, (g a).Spectates P) :
    (p >>= g).Spectates P := fun s =>
  Guarantees.bind <| (hp s).weaken fun r t _ => by
    cases r with
    | ok a => exact hg a t
    | error e => trivial

theorem Spectates.tryCatch {handler : ε → Prog ι τ ε α} (hp : p.Spectates P)
    (hh : ∀ e, (handler e).Spectates P) : (MonadExcept.tryCatch p handler).Spectates P := fun s =>
  Guarantees.bind <| Guarantees.attempt <| (hp s).weaken fun r t _ => by
    cases r with
    | ok a => trivial
    | error e => exact hh e t

theorem Spectates.ite {A : Prop} [Decidable A] {q : Prog ι τ ε α} (hp : p.Spectates P)
    (hq : q.Spectates P) : (if A then p else q).Spectates P := by
  split
  · exact hp
  · exact hq

end Prog

variable {P} in
theorem spectates_perform {b : Block τ ε α} (hb : b.Moves fun s t => P.get t = P.get s) :
    (perform b).Spectates P := fun _ =>
  guarantees_perform fun t _ => (hb t).mono fun _ _ h => ⟨h, trivial⟩

namespace System

variable (S : System ι σ ε κ) (T : System ι τ ε κ')

/-- `S`, at work on a part of the state of `T`, beside `T`. -/
def beside : System ι τ ε (κ ⊕ κ') where
  exec
    | .inl c => (S.exec c).zoom P
    | .inr c => T.exec c
  enabled
    | .inl c => fun t => S.enabled c (P.get t)
    | .inr c => T.enabled c
  arrive
    | .inl c => fun t => P.set (S.arrive c (P.get t)) t
    | .inr c => T.arrive c
  env t u := (∃ s, S.env (P.get t) s ∧ u = P.set s t) ∨ T.env t u

structure Observes : Prop where
  exec : ∀ c, (T.exec c).Spectates P
  arrive : ∀ c t, P.get (T.arrive c t) = P.get t
  env : ∀ t u, T.env t u → P.get u = P.get t

structure Zoomed (x : Thread ι τ ε (κ ⊕ κ')) (y : Thread ι σ ε κ) : Prop where
  call : x.call = .inl y.call
  start : P.get x.start = y.start
  rest : x.rest = y.rest.zoom P

structure Onlooker (x : Thread ι τ ε (κ ⊕ κ')) : Prop where
  call : x.call.getLeft? = none
  rest : ∃ s, x.rest.Guarantees (fun _ _ => True) (fun s t => P.get t = P.get s) (fun _ _ => True) s

inductive Among : List (Thread ι τ ε (κ ⊕ κ')) → List (Thread ι σ ε κ) → Prop
  | nil : Among [] []
  | own {x : Thread ι τ ε (κ ⊕ κ')} {y : Thread ι σ ε κ} {xs : List (Thread ι τ ε (κ ⊕ κ'))}
      {ys : List (Thread ι σ ε κ)} : Zoomed P x y → Among xs ys → Among (x :: xs) (y :: ys)
  | other {x : Thread ι τ ε (κ ⊕ κ')} {xs : List (Thread ι τ ε (κ ⊕ κ'))}
      {ys : List (Thread ι σ ε κ)} : Onlooker P x → Among xs ys → Among (x :: xs) ys

variable {P S T}

namespace Among

variable {x x' : Thread ι τ ε (κ ⊕ κ')} {us vs xs : List (Thread ι τ ε (κ ⊕ κ'))}
  {y : Thread ι σ ε κ} {us' vs' ys : List (Thread ι σ ε κ)}

theorem calls (h : Among P xs ys) : ys.map (·.call) = xs.filterMap (·.call.getLeft?) := by
  induction h with
  | nil => rfl
  | own hz _ ih => simp [hz.call, ih]
  | other ho _ ih => simp [ho.call, ih]

theorem append (hu : Among P us us') (hv : Among P vs vs') : Among P (us ++ vs) (us' ++ vs') := by
  induction hu with
  | nil => exact hv
  | own hz _ ih => exact .own hz ih
  | other ho _ ih => exact .other ho ih

theorem split (h : Among P (us ++ x :: vs) ys) : ∃ us' vs', Among P us us' ∧ Among P vs vs' ∧
    ((∃ y, ys = us' ++ y :: vs' ∧ Zoomed P x y) ∨ ys = us' ++ vs' ∧ Onlooker P x) := by
  induction us generalizing ys with
  | nil =>
    cases h with
    | own hz hv => exact ⟨[], _, .nil, hv, .inl ⟨_, rfl, hz⟩⟩
    | other ho hv => exact ⟨[], _, .nil, hv, .inr ⟨rfl, ho⟩⟩
  | cons u us ih =>
    cases h with
    | own hz h =>
      obtain ⟨us', vs', hu, hv, ⟨y, rfl, hy⟩ | ⟨rfl, ho⟩⟩ := ih h
      · exact ⟨_, vs', .own hz hu, hv, .inl ⟨y, rfl, hy⟩⟩
      · exact ⟨_, vs', .own hz hu, hv, .inr ⟨rfl, ho⟩⟩
    | other ho h =>
      obtain ⟨us', vs', hu, hv, hrest⟩ := ih h
      exact ⟨us', vs', .other ho hu, hv, hrest⟩

end Among

section

variable {c : κ ⊕ κ'} {a t : τ} {β : Type} {f : ι → τ → Except ε β × τ} {k : β → Prog ι τ ε Unit}

theorem Onlooker.step (h : Onlooker P (⟨c, a, .step f k⟩ : Thread ι τ ε (κ ⊕ κ'))) (i : ι) (t : τ) :
    P.get (f i t).2 = P.get t ∧ Onlooker P (⟨c, a, match (f i t).1 with
      | .ok b => k b
      | .error e => .ret (.error e)⟩ : Thread ι τ ε (κ ⊕ κ')) := by
  obtain ⟨hc, s, hs⟩ := h
  obtain ⟨ht, hk⟩ := hs i t trivial
  refine ⟨ht, hc, (f i t).2, ?_⟩
  cases hf : (f i t).1 with
  | ok b => simpa only [hf] using hk
  | error e => trivial

theorem Zoomed.step {y : Thread ι σ ε κ} (h : Zoomed P ⟨c, a, .step f k⟩ y) (i : ι) (t : τ) :
    ∃ (g : ι → σ → Except ε β × σ) (l : β → Prog ι σ ε Unit), y = ⟨y.call, y.start, .step g l⟩ ∧
      (f i t).2 = P.set (g i (P.get t)).2 t ∧
      Zoomed P (⟨c, a, match (f i t).1 with
        | .ok b => k b
        | .error e => .ret (.error e)⟩ : Thread ι τ ε (κ ⊕ κ')) ⟨y.call, y.start,
          match (g i (P.get t)).1 with
          | .ok b => l b
          | .error e => .ret (.error e)⟩ := by
  obtain ⟨hc, ha, hr⟩ := h
  obtain ⟨d, b, p⟩ := y
  cases p with
  | ret r => exact absurd hr nofun
  | step g l =>
    simp only [Prog.zoom] at hr
    cases hr
    refine ⟨g, l, rfl, rfl, hc, ha, ?_⟩
    cases (g i (P.get t)).1 <;> rfl

end

/-- What the whole does to the part is what `S` does there by itself: an interleaving with the
calls of an onlooker is one without them. -/
theorem Interleaved.component {t₀ t : τ} {ts : List (Thread ι τ ε (κ ⊕ κ'))}
    (hs : (S.beside P T).Interleaved t₀ ts t) (hT : T.Observes P) :
    ∃ us, Among P ts us ∧ S.Interleaved (P.get t₀) us (P.get t) := by
  induction hs with
  | start => exact ⟨[], .nil, .start⟩
  | env _ he ih =>
    obtain ⟨us, hus, hrun⟩ := ih
    refine ⟨us, hus, ?_⟩
    rcases he with ⟨s, hs, rfl⟩ | he
    · rw [P.get_set]
      exact hrun.env hs
    · rwa [hT.env _ _ he]
  | @call ts t c _ hen ih =>
    obtain ⟨us, hus, hrun⟩ := ih
    cases c with
    | inl c =>
      refine ⟨⟨c, S.arrive c (P.get t), S.exec c⟩ :: us, .own ⟨rfl, P.get_set _ _, rfl⟩ hus, ?_⟩
      simpa only [beside, P.get_set] using hrun.call (c := c) hen
    | inr c =>
      refine ⟨us, .other ⟨rfl, t, hT.exec c t⟩ hus, ?_⟩
      simpa only [beside, hT.arrive] using hrun
  | @step us vs c a t β f k i _ ih =>
    obtain ⟨ys, hys, hrun⟩ := ih
    obtain ⟨us', vs', hu, hv, ⟨y, rfl, hy⟩ | ⟨rfl, ho⟩⟩ := hys.split
    · obtain ⟨g, l, he, hset, hz⟩ := hy.step i t
      refine ⟨_, hu.append (.own hz hv), ?_⟩
      rw [he] at hrun
      rw [hset, P.get_set]
      exact hrun.step i
    · obtain ⟨hget, ho⟩ := ho.step i t
      refine ⟨_, hu.append (.other ho hv), ?_⟩
      rwa [hget]

def Thread.right? (x : Thread ι τ ε (κ ⊕ κ')) : Option (Thread ι τ ε κ') :=
  match x.call with
  | .inl _ => none
  | .inr c => some ⟨c, x.start, x.rest⟩

theorem forall_right? {Q : Prog ι τ ε Unit → Prop} {ts : List (Thread ι τ ε (κ ⊕ κ'))}
    (h : ∀ x ∈ ts, x.call.isRight → Q x.rest) : ∀ y ∈ ts.filterMap Thread.right?, Q y.rest := by
  intro y hy
  obtain ⟨⟨c, a, p⟩, hx, hxy⟩ := List.mem_filterMap.1 hy
  cases c with
  | inl c => cases hxy
  | inr c =>
    cases hxy
    exact h _ hx rfl

theorem Interleaved.others {E : τ → τ → Prop} {t₀ t : τ} {ts : List (Thread ι τ ε (κ ⊕ κ'))}
    (hs : (S.beside P T).Interleaved t₀ ts t) (henv : ∀ t u, (S.beside P T).env t u → E t u)
    (harrive : ∀ c t, S.enabled c (P.get t) → E t (P.set (S.arrive c (P.get t)) t))
    (hstep : ∀ us vs c a s (β : Type) (f : ι → τ → Except ε β × τ) (k : β → Prog ι τ ε Unit) i,
      (S.beside P T).Interleaved t₀ (us ++ ⟨.inl c, a, .step f k⟩ :: vs) s → E s (f i s).2) :
    ({ T with env := E } : System ι τ ε κ').Interleaved t₀ (ts.filterMap Thread.right?) t := by
  induction hs with
  | start => exact .start
  | env _ he ih => exact ih.env (henv _ _ he)
  | @call ts t c _ hen ih =>
    cases c with
    | inl c => exact ih.env (harrive c t hen)
    | inr c => exact ih.call (c := c) hen
  | @step us vs c a t β f k i hs ih =>
    cases c with
    | inl c =>
      have hnext := ih.env (hstep us vs c a t β f k i hs)
      simp only [List.filterMap_append, List.filterMap_cons, Thread.right?] at hnext ⊢
      exact hnext
    | inr c =>
      simp only [List.filterMap_append, List.filterMap_cons, Thread.right?] at ih ⊢
      exact ih.step i

end System
end Resumption

import InvitationService.Lib.Resumption

open Relation (ReflTransGen)

namespace Resumption

/-- A service: what each call runs, when a call may arrive, what its arrival
leaves in the state, and what happens without the service. -/
structure System (ι σ ε κ : Type) where
  exec : κ → Prog ι σ ε Unit
  enabled : κ → σ → Prop
  arrive : κ → σ → σ
  env : σ → σ → Prop

namespace System

variable {ι σ ε κ : Type} {S : System ι σ ε κ} {I : σ → Prop} {M : σ → σ → Prop}

/-- One call of a serial run: where it found the system and how it ended. -/
structure Record (σ ε κ : Type) where
  before : σ
  call : κ
  outcome : Except ε Unit

/-- Calls executed one at a time from `s₀`, oldest first. -/
inductive Serial (S : System ι σ ε κ) (s₀ : σ) : List (Record σ ε κ) → σ → Prop
  | start : Serial S s₀ [] s₀
  | env {h : List (Record σ ε κ)} {s t : σ} :
      Serial S s₀ h s → S.env s t → Serial S s₀ h t
  | call {h : List (Record σ ε κ)} {s t : σ} {c : κ} {r : Except ε Unit} :
      Serial S s₀ h s → S.enabled c s →
      Prog.Exec (ReflTransGen S.env) (S.exec c) (S.arrive c s) r t →
      Serial S s₀ (h ++ [⟨s, c, r⟩]) t

theorem Serial.trans {s₀ s t : σ} {g h : List (Record σ ε κ)} (hs : S.Serial s₀ g s)
    (ht : S.Serial s h t) : S.Serial s₀ (g ++ h) t := by
  induction ht with
  | start => simpa using hs
  | env _ he ih => exact ih.env he
  | call _ hen hex ih => rw [← List.append_assoc]; exact ih.call hen hex

theorem Serial.nil {s₀ s : σ} (hs : S.Serial s₀ [] s) : ReflTransGen S.env s₀ s := by
  generalize hh : ([] : List (Record σ ε κ)) = h at hs
  induction hs with
  | start => exact .refl
  | env _ he ih => exact (ih hh).tail he
  | call _ _ _ => simp at hh

theorem Serial.split {s₀ w : σ} {g g' : List (Record σ ε κ)} {x : Record σ ε κ}
    (hs : S.Serial s₀ (g ++ x :: g') w) : S.Serial s₀ g x.before ∧ S.enabled x.call x.before ∧
      ∃ t, Prog.Exec (ReflTransGen S.env) (S.exec x.call) (S.arrive x.call x.before) x.outcome t ∧
        S.Serial t g' w := by
  generalize hh : g ++ x :: g' = h at hs
  induction hs generalizing g' with
  | start => simp at hh
  | env _ he ih =>
    obtain ⟨hg, hen, t, hex, ht⟩ := ih hh
    exact ⟨hg, hen, t, hex, ht.env he⟩
  | @call h s w c r hs hen hex ih =>
    rcases List.eq_nil_or_concat g' with rfl | ⟨g', y, rfl⟩
    · obtain ⟨rfl, hx⟩ := List.append_inj' hh rfl
      cases hx
      exact ⟨hs, hen, w, hex, .start⟩
    · rw [List.concat_eq_append, ← List.cons_append, ← List.append_assoc] at hh
      obtain ⟨rfl, hx⟩ := List.append_inj' hh rfl
      cases hx
      obtain ⟨hg, hen', t, hex', ht⟩ := ih rfl
      rw [List.concat_eq_append]
      exact ⟨hg, hen', t, hex', ht.call hen hex⟩

theorem Serial.last {s₀ t : σ} {h : List (Record σ ε κ)} {x : Record σ ε κ}
    (hs : S.Serial s₀ (h ++ [x]) t) : S.Serial s₀ h x.before ∧ S.enabled x.call x.before ∧
      ∃ u, Prog.Exec (ReflTransGen S.env) (S.exec x.call) (S.arrive x.call x.before) x.outcome u ∧
        ReflTransGen S.env u t := by
  obtain ⟨hg, hen, u, hex, hu⟩ := hs.split
  exact ⟨hg, hen, u, hex, hu.nil⟩

theorem Serial.run {s₀ s : σ} {h : List (Record σ ε κ)} (hs : S.Serial s₀ h s) (c : κ)
    (hen : S.enabled c s) (choices : Nat → ι) :
    S.Serial s₀ (h ++ [⟨s, c, ((S.exec c).run choices (S.arrive c s)).1⟩])
      ((S.exec c).run choices (S.arrive c s)).2 :=
  hs.call hen (Prog.exec_run (fun _ => .refl) _ _ _)

theorem Serial.of_env {E : σ → σ → Prop} {s₀ s : σ} {h : List (Record σ ε κ)}
    (hs : ({ S with env := E } : System ι σ ε κ).Serial s₀ h s) (hE : ∀ s t, E s t → S.env s t) :
    S.Serial s₀ h s := by
  induction hs with
  | start => exact .start
  | env _ he ih => exact ih.env (hE _ _ he)
  | call _ hen hex ih => exact ih.call hen (hex.mono (ReflTransGen.mono hE))

/-- The system whose environment chooses `c` whenever it has a choice. -/
def always (S : System ι σ ε κ) (c : ι) : System Unit σ ε κ where
  exec q := (S.exec q).always c
  enabled := S.enabled
  arrive := S.arrive
  env := S.env

theorem Serial.of_always {c : ι} {s₀ s : σ} {h : List (Record σ ε κ)}
    (hs : (S.always c).Serial s₀ h s) : S.Serial s₀ h s := by
  induction hs with
  | start => exact .start
  | env _ he ih => exact ih.env he
  | call _ hen hex ih => exact ih.call hen hex.of_always

theorem Serial.avoids {c : ι} {D : ε → Prop} {s₀ s : σ} {h : List (Record σ ε κ)}
    (hs : (S.always c).Serial s₀ h s) :
    ∀ x ∈ h, (S.exec x.call).Avoids c D → ∀ e, x.outcome = .error e → ¬ D e := by
  induction hs with
  | start => simp
  | env _ _ ih => exact ih
  | call _ _ hex ih =>
    intro x hx hp
    rcases List.mem_append.1 hx with hx | hx
    · exact ih x hx hp
    · obtain rfl := List.mem_singleton.1 hx
      exact hex.avoids hp

/-- What every call keeps, whatever its outcome, holds throughout a serial run; `P`
is what the calls of the run are known to satisfy. -/
theorem Serial.invariant {P : Record σ ε κ → Prop} {s₀ s : σ} {h : List (Record σ ε κ)}
    (hs : S.Serial s₀ h s) (hP : ∀ x ∈ h, P x) (h₀ : I s₀)
    (henv : ∀ s t, I s → S.env s t → I t)
    (hcall : ∀ c s r t, I s → S.enabled c s → P ⟨s, c, r⟩ →
      Prog.Exec (ReflTransGen S.env) (S.exec c) (S.arrive c s) r t → I t) : I s := by
  induction hs with
  | start => exact h₀
  | env _ he ih => exact henv _ _ (ih hP) he
  | call _ hen hex ih =>
    exact hcall _ _ _ _ (ih fun x hx => hP x (List.mem_append_left _ hx)) hen
      (hP _ (by simp)) hex

theorem env_star (henv : ∀ s t, I s → S.env s t → I t) (s t : σ) (hs : I s)
    (h : ReflTransGen S.env s t) : I t := by
  induction h with
  | refl => exact hs
  | tail _ he ih => exact henv _ _ ih he

theorem Serial.stepwise {A : κ → σ → σ → σ → Prop} {J : κ → σ → σ → Prop}
    {P : Record σ ε κ → Prop} {s₀ s : σ} {h : List (Record σ ε κ)} (hs : S.Serial s₀ h s)
    (hP : ∀ x ∈ h, P x) (h₀ : I s₀) (henv : ∀ s t, I s → S.env s t → I t)
    (hexec : ∀ c s, (S.exec c).Guarantees (ReflTransGen S.env) (A c (S.arrive c s))
      (fun _ _ => True) (S.arrive c s))
    (hstart : ∀ c s r, I s → S.enabled c s → P ⟨s, c, r⟩ → J c s (S.arrive c s))
    (hJenv : ∀ c s t u, J c s t → S.env t u → J c s u)
    (hJ : ∀ c s t u, J c s t → A c (S.arrive c s) t u → J c s u)
    (hend : ∀ c s t, J c s t → I t) : I s :=
  hs.invariant hP h₀ henv fun c s r _ hi hen hp hex =>
    hend c s _ (hex.sound (hexec c s) (hstart c s r hi hen hp) (env_star (hJenv c s)) (hJ c s)).1

/-- In a serial run from `s₀`, some call makes a step from `t` to `u`. -/
def SerialStep (S : System ι σ ε κ) (s₀ t u : σ) : Prop :=
  ∃ h s c, S.Serial s₀ h s ∧ S.enabled c s ∧
    Prog.Makes (ReflTransGen S.env) (S.exec c) (S.arrive c s) t u

/-- A call in progress: where it arrived and what is left of it. -/
structure Thread (ι σ ε κ : Type) where
  call : κ
  start : σ
  rest : Prog ι σ ε Unit

/-- Any interleaving of the steps of any number of calls. -/
inductive Interleaved (S : System ι σ ε κ) (s₀ : σ) : List (Thread ι σ ε κ) → σ → Prop
  | start : Interleaved S s₀ [] s₀
  | env {ts : List (Thread ι σ ε κ)} {s t : σ} :
      Interleaved S s₀ ts s → S.env s t → Interleaved S s₀ ts t
  | call {ts : List (Thread ι σ ε κ)} {s : σ} {c : κ} :
      Interleaved S s₀ ts s → S.enabled c s →
      Interleaved S s₀ (⟨c, S.arrive c s, S.exec c⟩ :: ts) (S.arrive c s)
  | step {us vs : List (Thread ι σ ε κ)} {c : κ} {a s : σ} {β : Type}
      {f : ι → σ → Except ε β × σ} {k : β → Prog ι σ ε Unit} (i : ι) :
      Interleaved S s₀ (us ++ ⟨c, a, .step f k⟩ :: vs) s →
      Interleaved S s₀ (us ++ ⟨c, a, match (f i s).1 with
        | .ok b => k b
        | .error e => .ret (.error e)⟩ :: vs) (f i s).2

theorem Interleaved.environment {s₀ s t : σ} {ts : List (Thread ι σ ε κ)}
    (hs : S.Interleaved s₀ ts s) (h : ReflTransGen S.env s t) : S.Interleaved s₀ ts t := by
  induction h with
  | refl => exact hs
  | tail _ he ih => exact ih.env he

theorem Interleaved.advance {us vs : List (Thread ι σ ε κ)} {c : κ} {a s₀ s : σ}
    {p : Prog ι σ ε Unit} (n : Nat) (choices : Nat → ι)
    (hs : S.Interleaved s₀ (us ++ ⟨c, a, p⟩ :: vs) s) :
    S.Interleaved s₀ (us ++ ⟨c, a, (p.advance n choices s).1⟩ :: vs) (p.advance n choices s).2 := by
  induction n generalizing p choices s with
  | zero => exact hs
  | succ n ih =>
    cases p with
    | ret r => exact hs
    | step f k =>
      have hstep := Interleaved.step (choices 0) hs
      rw [Prog.advance]
      cases hf : f (choices 0) s with
      | mk r t =>
        rw [hf] at hstep
        cases r with
        | ok b => exact ih _ hstep
        | error e => exact hstep

theorem Interleaved.finish {us vs : List (Thread ι σ ε κ)} {c : κ} {a s₀ s t : σ}
    {p : Prog ι σ ε Unit} {r : Except ε Unit} (hx : Prog.Exec (ReflTransGen S.env) p s r t)
    (hs : S.Interleaved s₀ (us ++ ⟨c, a, p⟩ :: vs) s) :
    S.Interleaved s₀ (us ++ ⟨c, a, .ret r⟩ :: vs) t := by
  induction hx with
  | ret => exact hs
  | @ok β f k i b s t u v r he hf _ ih =>
    have hstep := Interleaved.step i (hs.environment he)
    rw [hf] at hstep
    exact ih hstep
  | @error β f k i e s t u he hf =>
    have hstep := Interleaved.step i (hs.environment he)
    rwa [hf] at hstep

theorem Interleaved.run {s₀ s : σ} {ts : List (Thread ι σ ε κ)} (hs : S.Interleaved s₀ ts s) (c : κ)
    (hen : S.enabled c s) (choices : Nat → ι) :
    S.Interleaved s₀ (⟨c, S.arrive c s, .ret ((S.exec c).run choices (S.arrive c s)).1⟩ :: ts)
      ((S.exec c).run choices (S.arrive c s)).2 := by
  have hcall : S.Interleaved s₀ ([] ++ ⟨c, S.arrive c s, S.exec c⟩ :: ts)
    (S.arrive c s) := hs.call hen
  exact hcall.finish (Prog.exec_run (fun _ => .refl) _ _ _)

theorem Serial.interleaved_calls {s₀ s : σ} {h : List (Record σ ε κ)} (hs : S.Serial s₀ h s) :
    ∃ ts, S.Interleaved s₀ ts s ∧ ∀ x ∈ ts, ∃ y ∈ h, y.call = x.call := by
  induction hs with
  | start => exact ⟨[], .start, by simp⟩
  | env _ he ih => exact ih.imp fun _ hi => ⟨hi.1.env he, hi.2⟩
  | @call h s t c r _ hen hex ih =>
    obtain ⟨ts, hts, hcalls⟩ := ih
    refine ⟨[] ++ ⟨_, _, .ret _⟩ :: ts, .finish hex (hts.call hen), fun x hx => ?_⟩
    rcases List.mem_cons.1 hx with rfl | hx
    · exact ⟨⟨s, c, r⟩, by simp, rfl⟩
    · obtain ⟨y, hy, he⟩ := hcalls x hx
      exact ⟨y, List.mem_append_left _ hy, he⟩

theorem Serial.interleaved {s₀ s : σ} {h : List (Record σ ε κ)} (hs : S.Serial s₀ h s) :
    ∃ ts, S.Interleaved s₀ ts s := hs.interleaved_calls.imp fun _ h => h.1

def Rely (I : σ → Prop) (M : σ → σ → Prop) (a s t : σ) : Prop := I s ∧ I t ∧ M a s ∧ M s t

/-- The run from `s₀` that has led to `s` has passed through `u`. -/
inductive Passed (S : System ι σ ε κ) (s₀ u : σ) : List (Thread ι σ ε κ) → σ → Prop
  | here {ts : List (Thread ι σ ε κ)} : Interleaved S s₀ ts u → Passed S s₀ u ts u
  | env {ts : List (Thread ι σ ε κ)} {s t : σ} :
      Passed S s₀ u ts s → S.env s t → Passed S s₀ u ts t
  | call {ts : List (Thread ι σ ε κ)} {s : σ} {c : κ} :
      Passed S s₀ u ts s → S.enabled c s →
      Passed S s₀ u (⟨c, S.arrive c s, S.exec c⟩ :: ts) (S.arrive c s)
  | step {us vs : List (Thread ι σ ε κ)} {c : κ} {a s : σ} {β : Type}
      {f : ι → σ → Except ε β × σ} {k : β → Prog ι σ ε Unit} (i : ι) :
      Passed S s₀ u (us ++ ⟨c, a, .step f k⟩ :: vs) s →
      Passed S s₀ u (us ++ ⟨c, a, match (f i s).1 with
        | .ok b => k b
        | .error e => .ret (.error e)⟩ :: vs) (f i s).2

theorem Passed.interleaved {s₀ u s : σ} {ts : List (Thread ι σ ε κ)} (h : S.Passed s₀ u ts s) :
    S.Interleaved s₀ ts s := by
  induction h with
  | here hs => exact hs
  | env _ he ih => exact ih.env he
  | call _ hen ih => exact ih.call hen
  | step i _ ih => exact ih.step i

theorem Interleaved.passed {s₀ s : σ} {ts : List (Thread ι σ ε κ)} (h : S.Interleaved s₀ ts s) :
    S.Passed s₀ s₀ ts s := by
  induction h with
  | start => exact .here .start
  | env _ he ih => exact ih.env he
  | call _ hen ih => exact ih.call hen
  | step i _ ih => exact ih.step i

structure Disciplined (S : System ι σ ε κ) (P : κ → Prop) (I : σ → Prop) (M : σ → σ → Prop)
    (A : κ → σ → σ → σ → Prop) : Prop where
  refl : ∀ s, M s s
  trans : ∀ s t u, M s t → M t u → M s u
  env : ∀ s t, I s → S.env s t → I t ∧ M s t
  arrive : ∀ c s, I s → S.enabled c s → I (S.arrive c s) ∧ M s (S.arrive c s)
  exec : ∀ c s, P c → I (S.arrive c s) → (S.exec c).Guarantees (Rely I M (S.arrive c s))
    (A c (S.arrive c s)) (fun _ _ => True) (S.arrive c s)
  step : ∀ c s t u, P c → I (S.arrive c s) → I t → M (S.arrive c s) t →
    A c (S.arrive c s) t u → I u ∧ M t u

def Thread.Guarded (S : System ι σ ε κ) (I : σ → Prop) (M : σ → σ → Prop)
    (A : κ → σ → σ → σ → Prop) (x : Thread ι σ ε κ) (s : σ) : Prop :=
  ∃ v u, x.start = S.arrive x.call v ∧ I x.start ∧ I u ∧ M x.start u ∧ M u s ∧
    x.rest.Guarantees (Rely I M x.start) (A x.call x.start) (fun _ _ => True) u

namespace Disciplined

variable {A : κ → σ → σ → σ → Prop} {P : κ → Prop} {s₀ s t u : σ} {ts : List (Thread ι σ ε κ)}

theorem guarded_of_move (hS : S.Disciplined P I M A) {x : Thread ι σ ε κ}
    (h : x.Guarded S I M A s) (hm : M s t) : x.Guarded S I M A t := by
  obtain ⟨v, u, hv, ha, hu, hau, hus, hg⟩ := h
  exact ⟨v, u, hv, ha, hu, hau, hS.trans _ _ _ hus hm, hg⟩

theorem threads (hS : S.Disciplined P I M A) (hs : S.Interleaved s₀ ts s)
    (hP : ∀ x ∈ ts, P x.call) (h₀ : I s₀) : I s ∧ ∀ x ∈ ts, x.Guarded S I M A s := by
  induction hs with
  | start => exact ⟨h₀, by simp⟩
  | @env ts s t _ he ih =>
    obtain ⟨hi, hts⟩ := ih hP
    obtain ⟨hi', hm⟩ := hS.env s t hi he
    exact ⟨hi', fun x hx => hS.guarded_of_move (hts x hx) hm⟩
  | @call ts s c _ hen ih =>
    obtain ⟨hi, hts⟩ := ih fun x hx => hP x (List.mem_cons_of_mem _ hx)
    obtain ⟨hi', hm⟩ := hS.arrive c s hi hen
    refine ⟨hi', fun x hx => ?_⟩
    rcases List.mem_cons.1 hx with rfl | hx
    · exact ⟨s, _, rfl, hi', hi', hS.refl _, hS.refl _, hS.exec c s (hP _ List.mem_cons_self) hi'⟩
    · exact hS.guarded_of_move (hts x hx) hm
  | @step us vs c a s β f k i _ ih =>
    have hc : P c := hP ⟨c, a, _⟩ (List.mem_append_right _ List.mem_cons_self)
    obtain ⟨hi, hts⟩ := ih fun x hx => by
      rcases List.mem_append.1 hx with hx | hx
      · exact hP x (List.mem_append_left _ hx)
      · rcases List.mem_cons.1 hx with rfl | hx
        · exact hc
        · exact hP x (List.mem_append_right _ (List.mem_cons_of_mem _ hx))
    obtain ⟨v, u, hv, ha, hu, hau, hus, hg⟩ := hts ⟨c, a, .step f k⟩ (by simp)
    obtain rfl : a = S.arrive c v := hv
    obtain ⟨hstep, hk⟩ := hg i s ⟨hu, hi, hau, hus⟩
    obtain ⟨hi', hm⟩ := hS.step c v s _ hc ha hi (hS.trans _ _ _ hau hus) hstep
    have hold : ∀ x ∈ us ++ ⟨c, S.arrive c v, .step f k⟩ :: vs, x.Guarded S I M A (f i s).2 :=
      fun x hx => hS.guarded_of_move (hts x hx) hm
    refine ⟨hi', fun x hx => ?_⟩
    rcases List.mem_append.1 hx with hx | hx
    · exact hold x (List.mem_append_left _ hx)
    · rcases List.mem_cons.1 hx with rfl | hx
      · refine ⟨v, _, rfl, ha, hi', hS.trans _ _ _ (hS.trans _ _ _ hau hus) hm, hS.refl _, ?_⟩
        cases hf : (f i s).1 with
        | ok b => simpa only [hf] using hk
        | error e => trivial
      · exact hold x (List.mem_append_right _ (List.mem_cons_of_mem _ hx))

theorem invariant (hS : S.Disciplined P I M A) (hs : S.Interleaved s₀ ts s)
    (hP : ∀ x ∈ ts, P x.call) (h₀ : I s₀) : I s := (hS.threads hs hP h₀).1

theorem step_guaranteed (hS : S.Disciplined P I M A) {us vs : List (Thread ι σ ε κ)} {c : κ} {a : σ}
    {β : Type} {f : ι → σ → Except ε β × σ} {k : β → Prog ι σ ε Unit}
    (hs : S.Interleaved s₀ (us ++ ⟨c, a, .step f k⟩ :: vs) s)
    (hP : ∀ x ∈ us ++ ⟨c, a, .step f k⟩ :: vs, P x.call) (h₀ : I s₀) (i : ι) :
    A c a s (f i s).2 := by
  obtain ⟨hi, hthreads⟩ := hS.threads hs hP h₀
  obtain ⟨v, t, -, -, ht, hat, hts, hguarantees⟩ := hthreads ⟨c, a, .step f k⟩ (by simp)
  exact (hguarantees i s ⟨ht, hi, hat, hts⟩).1

theorem along (hS : S.Disciplined (fun _ => True) I M A) {N : σ → σ → Prop}
    (hs : S.Passed s₀ u ts s) (h₀ : I s₀) (hrefl : ∀ s, N s s)
    (htrans : ∀ s t u, N s t → N t u → N s u) (henv : ∀ s t, S.env s t → N s t)
    (harrive : ∀ c s, N s (S.arrive c s)) (hA : ∀ c a t u, A c a t u → N t u) : N u s := by
  induction hs with
  | here _ => exact hrefl _
  | env _ he ih => exact htrans _ _ _ ih (henv _ _ he)
  | call _ _ ih => exact htrans _ _ _ ih (harrive _ _)
  | @step us vs c a s β f k i hpast ih =>
    obtain ⟨hi, hthreads⟩ := hS.threads hpast.interleaved (fun _ _ => trivial) h₀
    obtain ⟨v, t, -, -, ht, hat, hts, hguarantees⟩ := hthreads ⟨c, a, .step f k⟩ (by simp)
    exact htrans _ _ _ ih (hA _ _ _ _ (hguarantees i s ⟨ht, hi, hat, hts⟩).1)

end Disciplined

section

variable {A : κ → σ → σ → σ → Prop} {s₀ s : σ} {ts : List (Thread ι σ ε κ)}

/-- What the calls of a run guarantee as long as they can rely on `I`, they guarantee when `I` is
true of the moments of this one run, be it kept by others or not. -/
theorem Interleaved.guarded (hs : S.Interleaved s₀ ts s) (hrefl : ∀ s, M s s)
    (htrans : ∀ s t u, M s t → M t u → M s u) (henv : ∀ s t, S.env s t → M s t)
    (harrive : ∀ c s, M s (S.arrive c s)) (hA : ∀ c a s t, A c a s t → M s t)
    (hexec : ∀ c s, I (S.arrive c s) → (S.exec c).Guarantees (Rely I M (S.arrive c s))
      (A c (S.arrive c s)) (fun _ _ => True) (S.arrive c s))
    (hI : ∀ u, S.Passed s₀ u ts s → I u) : ∀ x ∈ ts, x.Guarded S I M A s := by
  have hmove : ∀ {x : Thread ι σ ε κ} {s t}, x.Guarded S I M A s → M s t → x.Guarded S I M A t :=
    fun ⟨v, u, hv, ha, hu, hau, hus, hg⟩ hm => ⟨v, u, hv, ha, hu, hau, htrans _ _ _ hus hm, hg⟩
  induction hs with
  | start => simp
  | @env ts s t _ he ih =>
    exact fun x hx => hmove (ih (fun u hu => hI u (hu.env he)) x hx) (henv s t he)
  | @call ts s c hs hen ih =>
    have hi : I (S.arrive c s) := hI _ (.here (hs.call hen))
    intro x hx
    rcases List.mem_cons.1 hx with rfl | hx
    · exact ⟨s, _, rfl, hi, hi, hrefl _, hrefl _, hexec c s hi⟩
    · exact hmove (ih (fun u hu => hI u (hu.call hen)) x hx) (harrive c s)
  | @step us vs c a s β f k i hs ih =>
    have hts := ih fun u hu => hI u (hu.step i)
    have hi : I s := hI s (.step i (.here hs))
    have hi' : I (f i s).2 := hI _ (.here (hs.step i))
    obtain ⟨v, u, hv, ha, hu, hau, hus, hg⟩ := hts ⟨c, a, .step f k⟩ (by simp)
    obtain rfl : a = S.arrive c v := hv
    obtain ⟨hstep, hk⟩ := hg i s ⟨hu, hi, hau, hus⟩
    have hm := hA c _ s _ hstep
    have hold : ∀ x ∈ us ++ ⟨c, S.arrive c v, .step f k⟩ :: vs, x.Guarded S I M A (f i s).2 :=
      fun x hx => hmove (hts x hx) hm
    intro x hx
    rcases List.mem_append.1 hx with hx | hx
    · exact hold x (List.mem_append_left _ hx)
    · rcases List.mem_cons.1 hx with rfl | hx
      · refine ⟨v, _, rfl, ha, hi', htrans _ _ _ (htrans _ _ _ hau hus) hm, hrefl _, ?_⟩
        cases hf : (f i s).1 with
        | ok b => simpa only [hf] using hk
        | error e => trivial
      · exact hold x (List.mem_append_right _ (List.mem_cons_of_mem _ hx))

theorem Thread.Guarded.step {c : κ} {a : σ} {β : Type} {f : ι → σ → Except ε β × σ}
    {k : β → Prog ι σ ε Unit} (h : Thread.Guarded S I M A ⟨c, a, .step f k⟩ s) (hi : I s) (i : ι) :
    A c a s (f i s).2 := by
  obtain ⟨v, t, -, -, ht, hat, hts, hg⟩ := h
  exact (hg i s ⟨ht, hi, hat, hts⟩).1

end

end System
end Resumption

import InvitationService.Lib.Machine
import Mathlib.Logic.Function.Basic

open Machine (Step)

/-- Calls that read in one step and write in a later one: what a call reads, unless it is refused;
what it then does to the state, with the entry it leaves in the log if it commits; and what may
happen besides. -/
structure Optimistic (σ κ ρ δ ε : Type) where
  read : κ → σ → Option ρ
  write : κ → ρ → δ → σ → Option ε × σ
  quiet : σ → σ → Prop

namespace Optimistic

variable {σ κ ρ δ ε : Type}

/-- A call has read, when the log had the length `since`, or it is over. -/
inductive Phase (κ ρ : Type)
  | read (call : κ) (seen : ρ) (since : Nat)
  | over

def Phase.since : Phase κ ρ → Option Nat
  | .read _ _ since => some since
  | .over => none

/-- The shared state, the calls under way, and what was committed, the newest first. -/
structure State (σ κ ρ ε : Type) where
  shared : σ
  phase : Nat → Option (Phase κ ρ) := fun _ => none
  log : List ε := []

inductive Move (σ κ δ : Type)
  | read (n : Nat) (call : κ)
  | write (n : Nat) (choice : δ)
  | other (shared : σ)

def Move.writer : Move σ κ δ → Option Nat
  | .write n _ => some n
  | _ => none

def State.finish (s : State σ κ ρ ε) (n : Nat) (x : Option ε × σ) : State σ κ ρ ε where
  shared := x.2
  phase := Function.update s.phase n (some .over)
  log := x.1.elim s.log (· :: s.log)

section

variable (P : Optimistic σ κ ρ δ ε) [DecidableRel P.quiet]

def start (s : State σ κ ρ ε) (call : κ) : Phase κ ρ :=
  (P.read call s.shared).elim .over fun seen => .read call seen s.log.length

def step (s : State σ κ ρ ε) : Move σ κ δ → Option (State σ κ ρ ε)
  | .read n call =>
    if (s.phase n).isNone then
      some { s with phase := Function.update s.phase n (some (P.start s call)) }
    else none
  | .write n choice =>
    match s.phase n with
    | some (.read call seen _) => some (s.finish n (P.write call seen choice s.shared))
    | _ => none
  | .other t => if P.quiet s.shared t then some { s with shared := t } else none

def machine : Machine (State σ κ ρ ε) (Move σ κ δ) where
  step := P.step

end

/-- What a call commits is admitted after what was committed last, unless that is older than what
the call has read. -/
def Admitted (ok : ε → ε → Prop) (x : Step (State σ κ ρ ε) (Move σ κ δ)) : Prop :=
  x.after.log ≠ x.before.log → ∀ n ∈ x.move.writer, ∀ ph ∈ x.before.phase n, ∀ since ∈ ph.since,
    since ≠ x.before.log.length → ∀ e ∈ x.after.log.head?, ∀ last ∈ x.before.log.head?, ok e last

instance [DecidableEq ε] (ok : ε → ε → Prop) [DecidableRel ok]
    (x : Step (State σ κ ρ ε) (Move σ κ δ)) : Decidable (Admitted ok x) :=
  inferInstanceAs (Decidable (_ → ∀ n ∈ x.move.writer, _))

variable {P : Optimistic σ κ ρ δ ε} [DecidableRel P.quiet] {s t : State σ κ ρ ε} {s₀ : σ}
  {m : Move σ κ δ} {h : List (Step (State σ κ ρ ε) (Move σ κ δ))}

inductive Effect (P : Optimistic σ κ ρ δ ε) (s t : State σ κ ρ ε) (m : Move σ κ δ) : Prop
  | stay : t.shared = s.shared → t.log = s.log → Effect P s t m
  | other : P.quiet s.shared t.shared → t.log = s.log → Effect P s t m
  | fail {n : Nat} {call : κ} {seen : ρ} {since : Nat} {choice : δ} :
      s.phase n = some (.read call seen since) →
      P.write call seen choice s.shared = (none, t.shared) → t.log = s.log → Effect P s t m
  | commit {n : Nat} {call : κ} {seen : ρ} {since : Nat} {choice : δ} {e : ε} :
      s.phase n = some (.read call seen since) → m = .write n choice →
      P.write call seen choice s.shared = (some e, t.shared) → t.log = e :: s.log → Effect P s t m

theorem step_effect (hm : P.step s m = some t) : Effect P s t m := by
  cases m with
  | read n call =>
    simp only [step] at hm
    split at hm
    · cases hm
      exact .stay rfl rfl
    · cases hm
  | write n choice =>
    simp only [step] at hm
    split at hm
    · rename_i call seen since hn
      cases hm
      cases hw : P.write call seen choice s.shared with
      | mk r u =>
        cases r with
        | none => exact .fail hn (hw.trans (by rw [State.finish])) rfl
        | some e => exact .commit hn rfl (hw.trans (by rw [State.finish])) rfl
    · cases hm
  | other u =>
    simp only [step] at hm
    split at hm
    · rename_i hq
      cases hm
      exact .other hq rfl
    · cases hm

theorem step_phase (hm : P.step s m = some t) {n : Nat} {call : κ} {seen : ρ} {since : Nat}
    (hn : t.phase n = some (.read call seen since)) : s.phase n = some (.read call seen since) ∨
      P.read call s.shared = some seen ∧ since = s.log.length ∧ t.shared = s.shared ∧
        t.log = s.log := by
  have hupdate : ∀ {k : Nat} {ph : Phase κ ρ},
      Function.update s.phase k (some ph) n = some (.read call seen since) →
        s.phase n = some (.read call seen since) ∨ ph = .read call seen since := fun {k ph} h => by
    by_cases hk : n = k
    · subst hk
      exact .inr (by simpa using h)
    · exact .inl (by simpa [hk] using h)
  cases m with
  | read k call' =>
    simp only [step] at hm
    split at hm
    · cases hm
      rcases hupdate hn with hn | hn
      · exact .inl hn
      · rw [start] at hn
        cases hr : P.read call' s.shared with
        | none => simp [hr] at hn
        | some r =>
          obtain ⟨rfl, rfl, rfl⟩ : call' = call ∧ r = seen ∧ s.log.length = since := by
            simpa [hr] using hn
          exact .inr ⟨hr, rfl, rfl, rfl⟩
    · cases hm
  | write k choice =>
    simp only [step] at hm
    split at hm
    · cases hm
      exact .inl ((hupdate hn).resolve_right (by simp))
    · cases hm
  | other u =>
    simp only [step] at hm
    split at hm
    · cases hm
      exact .inl hn
    · cases hm

theorem seen_of_run {D : κ → ρ → Prop} (hrun : P.machine.Run { shared := s₀ } h s)
    (hread : ∀ call seen s, P.read call s = some seen → D call seen) {n : Nat} {call : κ} {seen : ρ}
    {since : Nat} (hn : s.phase n = some (.read call seen since)) : D call seen := by
  refine hrun.invariant (P := fun _ => True) (I := fun s => ∀ n call seen since,
    s.phase n = some (.read call seen since) → D call seen) (fun _ _ => trivial) (by simp)
    (fun x hx _ hm n call seen since hn => ?_) n call seen since hn
  rcases step_phase hm hn with hn | ⟨hr, -⟩
  · exact hx n call seen since hn
  · exact hread _ _ _ hr

inductive Idle (P : Optimistic σ κ ρ δ ε) (D : κ → ρ → Prop) (s t : σ) : Prop
  | quiet : P.quiet s t → Idle P D s t
  | fail {call : κ} {seen : ρ} {choice : δ} :
      D call seen → P.write call seen choice s = (none, t) → Idle P D s t

/-- What is known of a call: `D` of what it has read, `Q` until something is committed, and `W` once
it is committed, until something else is. -/
structure Account (P : Optimistic σ κ ρ δ ε) (D : κ → ρ → Prop) (Q : κ → ρ → σ → Prop)
    (W : ε → σ → Prop) : Prop where
  seen : ∀ {call seen s}, P.read call s = some seen → D call seen
  read : ∀ {call seen s}, P.read call s = some seen → Q call seen s
  commit : ∀ {call seen choice s t e}, D call seen →
    P.write call seen choice s = (some e, t) → W e t
  fresh : ∀ {call seen s t}, Q call seen s → Idle P D s t → Q call seen t
  last : ∀ {e s t}, W e s → Idle P D s t → W e t

namespace Account

variable {D : κ → ρ → Prop} {Q : κ → ρ → σ → Prop} {W : ε → σ → Prop} (A : Account P D Q W)

include A

theorem seen_of_run (hrun : P.machine.Run { shared := s₀ } h s) {n : Nat} {call : κ} {seen : ρ}
    {since : Nat} (hn : s.phase n = some (.read call seen since)) : D call seen :=
  Optimistic.seen_of_run hrun (fun _ _ _ => A.seen) hn

theorem fresh_of_run (hrun : P.machine.Run { shared := s₀ } h s) {n : Nat} {call : κ} {seen : ρ}
    {since : Nat} (hn : s.phase n = some (.read call seen since)) :
    since ≤ s.log.length ∧ (since = s.log.length → Q call seen s.shared) := by
  induction hrun generalizing n call seen since with
  | nil => simp at hn
  | @snoc h s t m hrun hm ih =>
    rcases step_phase hm hn with hn | ⟨hr, rfl, hs, hl⟩
    · obtain ⟨hle, hq⟩ := ih hn
      cases step_effect hm with
      | stay hs hl => rw [hs, hl]; exact ⟨hle, hq⟩
      | other hquiet hl => rw [hl]; exact ⟨hle, fun h => A.fresh (hq h) (.quiet hquiet)⟩
      | fail hn' hw hl =>
        rw [hl]
        exact ⟨hle, fun h => A.fresh (hq h) (.fail (A.seen_of_run hrun hn') hw)⟩
      | commit _ _ _ hl =>
        rw [hl, List.length_cons]
        exact ⟨by omega, fun h => by omega⟩
    · rw [hs, hl]
      exact ⟨Nat.le_refl _, fun _ => A.read hr⟩

theorem last_of_run (hrun : P.machine.Run { shared := s₀ } h s) :
    ∀ e ∈ s.log.head?, W e s.shared := by
  induction hrun with
  | nil => simp
  | @snoc h s t m hrun hm ih =>
    intro e he
    cases step_effect hm with
    | stay hs hl => exact hs ▸ ih e (hl ▸ he)
    | other hq hl => exact A.last (ih e (hl ▸ he)) (.quiet hq)
    | fail hn hw hl => exact A.last (ih e (hl ▸ he)) (.fail (A.seen_of_run hrun hn) hw)
    | commit hn _ hw hl =>
      rw [hl] at he
      cases he
      exact A.commit (A.seen_of_run hrun hn) hw

/-- All that is committed is as it should be, if and only if each is admitted after the last. -/
theorem log_iff {L : ε → Prop} {ok : ε → ε → Prop} (hrun : P.machine.Run { shared := s₀ } h s)
    (hfresh : ∀ {call seen choice s e t}, D call seen → Q call seen s →
      P.write call seen choice s = (some e, t) → L e)
    (hlast : ∀ {call seen choice s e t last}, D call seen → W last s →
      P.write call seen choice s = (some e, t) → (L e ↔ ok e last)) :
    (∀ e ∈ s.log, L e) ↔ ∀ x ∈ h, Admitted ok x := by
  induction hrun with
  | nil => simp
  | @snoc h s t m hrun hm ih =>
    rw [List.forall_mem_append, List.forall_mem_singleton, ← ih]
    cases step_effect hm with
    | stay _ hl | other _ hl | fail _ _ hl =>
      rw [hl]
      exact (and_iff_left fun hne => absurd hl hne).symm
    | @commit n call seen since choice e hn hmove hw hl =>
      have hd := A.seen_of_run hrun hn
      obtain ⟨hle, hq⟩ := A.fresh_of_run hrun hn
      rw [hl, List.forall_mem_cons, and_comm, and_congr_right_iff]
      intro _
      have hadm : Admitted ok ⟨s, m, t⟩ ↔
          (since ≠ s.log.length → ∀ last ∈ s.log.head?, ok e last) := by
        simp [Admitted, hl, hmove, Move.writer, hn, Phase.since]
      rw [hadm]
      refine ⟨fun hL _ last hlast' => (hlast hd (A.last_of_run hrun last hlast') hw).1
        hL, fun h => ?_⟩
      by_cases hsince : since = s.log.length
      · exact hfresh hd (hq hsince) hw
      · obtain ⟨last, hlast'⟩ : ∃ last, last ∈ s.log.head? := by
          cases hlog : s.log with
          | nil => simp [hlog] at hle hsince; exact absurd hle hsince
          | cons last _ => exact ⟨last, rfl⟩
        exact (hlast hd (A.last_of_run hrun last hlast') hw).2 (h hsince last hlast')

end Account
end Optimistic

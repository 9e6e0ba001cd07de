import InvitationService.Lib.Machine
import InvitationService.Lib.Transaction
import Mathlib.Logic.Function.Basic

open Resumption
open Machine (Step)

/-- What a statement makes of its transaction: it goes on, with what it has written, or it fails. -/
inductive Outcome (φ ω : Type)
  | next (phase : φ) (write : Option ω)
  | fail
  deriving DecidableEq

/-- Transactions of single statements: what a write does to the data, and the row it locks; what a
statement does, given the data it sees; and the phases a transaction begins and ends in. -/
structure ReadCommitted (σ κ φ ω δ : Type) where
  apply : σ → ω → σ
  key : ω → κ
  statement : σ → δ → φ → Outcome φ ω
  initial : φ → Bool
  final : φ → Bool

namespace ReadCommitted

variable {σ κ φ ω δ : Type}

/-- A transaction in progress, with its writes, the oldest first. -/
structure Txn (φ ω : Type) where
  phase : φ
  own : List ω := []

/-- A transaction that was committed, with the data it found. -/
structure Entry (σ φ : Type) where
  phase : φ
  found : σ

/-- The committed data, the transactions in progress, the rows they have locked, and what was
committed, the newest first. -/
structure State (σ κ φ ω : Type) where
  committed : σ
  txn : Nat → Option (Txn φ ω) := fun _ => none
  lock : κ → Option Nat := fun _ => none
  log : List (Entry σ φ) := []

inductive Move (φ δ : Type)
  | start (n : Nat) (phase : φ)
  | run (n : Nat) (choice : δ)
  | commit (n : Nat)
  | rollback (n : Nat)

def Move.starts : Move φ δ → Option Nat
  | .start n _ => some n
  | _ => none

def State.put (s : State σ κ φ ω) (n : Nat) (x : Txn φ ω) : State σ κ φ ω :=
  { s with txn := Function.update s.txn n (some x) }

def State.lockRow [DecidableEq κ] (s : State σ κ φ ω) (n : Nat) (k : κ) : State σ κ φ ω :=
  { s with lock := Function.update s.lock k (some n) }

def State.finish (s : State σ κ φ ω) (n : Nat) : State σ κ φ ω :=
  { s with
    txn := Function.update s.txn n none
    lock := fun k => if s.lock k = some n then none else s.lock k }

section

variable {s : State σ κ φ ω} {n k : Nat} {x : Txn φ ω}

@[simp] theorem put_committed : (s.put n x).committed = s.committed := rfl
@[simp] theorem put_lock : (s.put n x).lock = s.lock := rfl
@[simp] theorem put_log : (s.put n x).log = s.log := rfl
@[simp] theorem finish_committed : (s.finish n).committed = s.committed := rfl
@[simp] theorem finish_log : (s.finish n).log = s.log := rfl

theorem txn_put {y : Txn φ ω} (hy : (s.put n x).txn k = some y) :
    (k = n ∧ y = x) ∨ (k ≠ n ∧ s.txn k = some y) := by
  by_cases hk : k = n
  · subst hk
    exact .inl ⟨rfl, by simpa [State.put, eq_comm] using hy⟩
  · exact .inr ⟨hk, by simpa [State.put, hk] using hy⟩

theorem txn_finish {y : Txn φ ω} (hy : (s.finish n).txn k = some y) : k ≠ n ∧ s.txn k = some y := by
  by_cases hk : k = n
  · subst hk
    simp [State.finish] at hy
  · exact ⟨hk, by simpa [State.finish, hk] using hy⟩

theorem lock_finish {r : κ} (hr : s.lock r = some k) (hk : k ≠ n) :
    (s.finish n).lock r = some k := by simp [State.finish, hr, hk]

end

section

variable [DecidableEq κ] (P : ReadCommitted σ κ φ ω δ)

/-- The data that a transaction sees: what is committed, and its own writes. -/
def view (s : σ) (own : List ω) : σ := own.foldl P.apply s

def step (s : State σ κ φ ω) : Move φ δ → Option (State σ κ φ ω)
  | .start n ph => if (s.txn n).isNone && P.initial ph then some (s.put n ⟨ph, []⟩) else none
  | .run n choice => do
    let x ← s.txn n
    match P.statement (P.view s.committed x.own) choice x.phase with
    | .next ph none => some (s.put n ⟨ph, x.own⟩)
    | .next ph (some w) =>
      -- it waits for the row as long as another transaction holds it
      if s.lock (P.key w) = none ∨ s.lock (P.key w) = some n then
        some ((s.lockRow n (P.key w)).put n ⟨ph, x.own ++ [w]⟩)
      else none
    | .fail => some (s.finish n)
  | .commit n => do
    let x ← s.txn n
    if P.final x.phase then
      some { s.finish n with
        committed := P.view s.committed x.own
        log := ⟨x.phase, s.committed⟩ :: s.log }
    else none
  | .rollback n => if (s.txn n).isSome then some (s.finish n) else none

def machine : Machine (State σ κ φ ω) (Move φ δ) where
  step := P.step

inductive Effect (s t : State σ κ φ ω) (m : Move φ δ) : Prop
  | start {n : Nat} {ph : φ} : m.starts = some n → P.initial ph = true →
      t = s.put n ⟨ph, []⟩ → Effect s t m
  | read {n : Nat} {x : Txn φ ω} {choice : δ} {ph : φ} : s.txn n = some x →
      P.statement (P.view s.committed x.own) choice x.phase = .next ph none →
      t = s.put n ⟨ph, x.own⟩ → Effect s t m
  | write {n : Nat} {x : Txn φ ω} {choice : δ} {ph : φ} {w : ω} : s.txn n = some x →
      P.statement (P.view s.committed x.own) choice x.phase = .next ph (some w) →
      s.lock (P.key w) = none ∨ s.lock (P.key w) = some n →
      t = (s.lockRow n (P.key w)).put n ⟨ph, x.own ++ [w]⟩ → Effect s t m
  | stop {n : Nat} : t = s.finish n → Effect s t m
  | commit {n : Nat} {x : Txn φ ω} : s.txn n = some x → P.final x.phase = true →
      t = { s.finish n with
        committed := P.view s.committed x.own
        log := ⟨x.phase, s.committed⟩ :: s.log } → Effect s t m

end

variable [DecidableEq κ] {P : ReadCommitted σ κ φ ω δ} {s t : State σ κ φ ω} {s₀ : σ}
  {m : Move φ δ} {h : List (Step (State σ κ φ ω) (Move φ δ))} {n k : Nat} {x : Txn φ ω}

theorem step_effect (hm : P.step s m = some t) : P.Effect s t m := by
  cases m with
  | start n ph =>
    simp only [step] at hm
    split at hm
    · rename_i hok
      cases hm
      exact .start rfl (Bool.and_eq_true_iff.1 hok).2 rfl
    · cases hm
  | run n choice =>
    simp only [step, Option.bind_eq_bind, Option.bind_eq_some_iff] at hm
    obtain ⟨x, hx, hm⟩ := hm
    split at hm
    · rename_i hst
      cases hm
      exact .read hx hst rfl
    · rename_i hst
      split at hm
      · rename_i hfree
        cases hm
        exact .write hx hst hfree rfl
      · cases hm
    · cases hm
      exact .stop rfl
  | commit n =>
    simp only [step, Option.bind_eq_bind, Option.bind_eq_some_iff] at hm
    obtain ⟨x, hx, hm⟩ := hm
    split at hm
    · rename_i hfin
      cases hm
      exact .commit hx hfin rfl
    · cases hm
  | rollback n =>
    simp only [step] at hm
    split at hm
    · cases hm
      exact .stop rfl
    · cases hm

@[simp] theorem lockRow_committed {r : κ} : (s.lockRow n r).committed = s.committed := rfl
@[simp] theorem lockRow_txn {r : κ} : (s.lockRow n r).txn = s.txn := rfl
@[simp] theorem lockRow_log {r : κ} : (s.lockRow n r).log = s.log := rfl

theorem starts_of_run (hrun : P.machine.Run { committed := s₀ } h s) (hx : s.txn n = some x) :
    ∃ y ∈ h, y.move.starts = some n := by
  induction hrun generalizing x with
  | nil => cases hx
  | @snoc h s t m hrun hm ih =>
    have hold : ∀ {y}, s.txn n = some y →
      ∃ z ∈ h ++ [⟨s, m, t⟩], z.move.starts = some n := fun hy =>
      (ih hy).imp fun _ hz => ⟨List.mem_append_left _ hz.1, hz.2⟩
    cases step_effect hm with
    | start hstart _ ht =>
      subst ht
      rcases txn_put hx with ⟨rfl, -⟩ | ⟨-, hx⟩
      · exact ⟨_, List.mem_append_right _ (List.mem_singleton.2 rfl), hstart⟩
      · exact hold hx
    | read hn _ ht | write hn _ _ ht =>
      subst ht
      rcases txn_put hx with ⟨rfl, -⟩ | ⟨-, hx⟩
      · exact hold hn
      · exact hold hx
    | stop ht | commit _ _ ht =>
      subst ht
      exact hold (txn_finish hx).2

def Locked (P : ReadCommitted σ κ φ ω δ) (s : State σ κ φ ω) : Prop :=
  ∀ n x, s.txn n = some x → ∀ w ∈ x.own, s.lock (P.key w) = some n

omit [DecidableEq κ] in
theorem Locked.finish (hl : P.Locked s) : P.Locked (s.finish n) := fun k _ hx w hw =>
  have hk := txn_finish hx
  lock_finish (hl k _ hk.2 w hw) hk.1

theorem Locked.step (hl : P.Locked s) (he : P.Effect s t m) : P.Locked t := by
  cases he with
  | start _ _ ht =>
    subst ht
    intro k x hx w hw
    rcases txn_put hx with ⟨-, rfl⟩ | ⟨-, hx⟩
    · cases hw
    · exact hl k x hx w hw
  | read hn _ ht =>
    subst ht
    intro k x hx w hw
    rcases txn_put hx with ⟨rfl, rfl⟩ | ⟨-, hx⟩
    · exact hl _ _ hn w hw
    · exact hl k x hx w hw
  | @write n y _ _ v hn _ hfree ht =>
    subst ht
    intro k x hx w hw
    by_cases hkey : P.key w = P.key v
    · rcases txn_put hx with ⟨rfl, rfl⟩ | ⟨hne, hx⟩
      · simp [State.lockRow, hkey]
      · have hk := hl k x hx w hw
        rw [hkey] at hk
        rw [hk] at hfree
        exact absurd (Option.some.inj (hfree.resolve_left (by simp))) hne
    · have hlock : (s.lockRow n (P.key v)).lock (P.key w) = s.lock (P.key w) :=
        Function.update_of_ne hkey _ _
      rw [put_lock, hlock]
      rcases txn_put hx with ⟨rfl, rfl⟩ | ⟨-, hx⟩
      · rcases List.mem_append.1 hw with hw | hw
        · exact hl _ _ hn w hw
        · exact absurd (congrArg P.key (List.mem_singleton.1 hw)) hkey
      · exact hl k x hx w hw
  | stop ht =>
    subst ht
    exact hl.finish
  | commit _ _ ht =>
    subst ht
    exact hl.finish

omit [DecidableEq κ] in
theorem Locked.disjoint (hl : P.Locked s) {y : Txn φ ω} (hx : s.txn n = some x)
    (hy : s.txn k = some y) (hne : n ≠ k) : ∀ w ∈ x.own, ∀ v ∈ y.own, P.key w ≠ P.key v := by
  intro w hw v hv heq
  have hn := hl n x hx w hw
  rw [heq, hl k y hy v hv] at hn
  exact hne (Option.some.inj hn).symm

/-- What a transaction in progress knows of the committed data (`H`), and what is known of that
data alone (`I`): statements keep it, and so do the commits of transactions that have written
other rows. -/
structure Protocol (P : ReadCommitted σ κ φ ω δ) (I : σ → Prop)
    (H : Txn φ ω → σ → Prop) : Prop where
  start : ∀ {ph s}, P.initial ph = true → H ⟨ph, []⟩ s
  read : ∀ {x s choice ph}, I s → H x s →
    P.statement (P.view s x.own) choice x.phase = .next ph none → H ⟨ph, x.own⟩ s
  write : ∀ {x s choice ph w}, I s → H x s →
    P.statement (P.view s x.own) choice x.phase = .next ph (some w) → H ⟨ph, x.own ++ [w]⟩ s
  commit : ∀ {y s}, I s → H y s → P.final y.phase = true → I (P.view s y.own)
  frame : ∀ {x y s}, H x s → H y s → P.final y.phase = true →
    (∀ w ∈ x.own, ∀ v ∈ y.own, P.key w ≠ P.key v) → H x (P.view s y.own)

namespace Protocol

variable {I : σ → Prop} {H : Txn φ ω → σ → Prop}

structure Kept (P : ReadCommitted σ κ φ ω δ) (I : σ → Prop) (H : Txn φ ω → σ → Prop)
    (s : State σ κ φ ω) : Prop where
  locked : P.Locked s
  committed : I s.committed
  txn : ∀ n x, s.txn n = some x → H x s.committed

theorem step (A : Protocol P I H) (hs : Kept P I H s) (he : P.Effect s t m) : Kept P I H t where
  locked := hs.locked.step he
  committed := by
    cases he with
    | start _ _ ht | read _ _ ht | write _ _ _ ht | stop ht => subst ht; exact hs.committed
    | commit hn hfin ht =>
      subst ht
      exact A.commit hs.committed (hs.txn _ _ hn) hfin
  txn k x hx := by
    cases he with
    | start _ hini ht =>
      subst ht
      rcases txn_put hx with ⟨-, rfl⟩ | ⟨-, hx⟩
      · exact A.start hini
      · exact hs.txn k x hx
    | read hn hst ht =>
      subst ht
      rcases txn_put hx with ⟨-, rfl⟩ | ⟨-, hx⟩
      · exact A.read hs.committed (hs.txn _ _ hn) hst
      · exact hs.txn k x hx
    | write hn hst _ ht =>
      subst ht
      rcases txn_put hx with ⟨-, rfl⟩ | ⟨-, hx⟩
      · exact A.write hs.committed (hs.txn _ _ hn) hst
      · exact hs.txn k x hx
    | stop ht =>
      subst ht
      exact hs.txn k x (txn_finish hx).2
    | commit hn hfin ht =>
      subst ht
      obtain ⟨hne, hx⟩ := txn_finish hx
      exact A.frame (hs.txn k x hx) (hs.txn _ _ hn) hfin (hs.locked.disjoint hx hn hne)

theorem kept_of_run (A : Protocol P I H) (hI : I s₀)
    (hrun : P.machine.Run { committed := s₀ } h s) : Kept P I H s :=
  hrun.invariant (P := fun _ => True) (fun _ _ => trivial)
    ⟨fun _ _ hx => by simp at hx, hI, fun _ _ hx => by simp at hx⟩
    fun _ hx _ hm => A.step hx (step_effect hm)

end Protocol
end ReadCommitted

/-! Blocks whose statements are those of a transaction. -/

namespace ReadCommitted

variable {σ κ φ ω δ τ ε α β : Type}

def Follows (P : ReadCommitted σ κ φ ω δ) (ph : φ) (s : σ) (ph' : φ) (t : σ) : Prop :=
  (ph' = ph ∧ t = s) ∨
    ∃ choice w, P.statement s choice ph = .next ph' w ∧ t = P.view s w.toList

def Tracks (P : ReadCommitted σ κ φ ω δ) (V : τ → Prop) (f : τ → σ) (K : α → φ → Prop) :
    Block τ ε α → φ → Prop
  | .ret (.ok a), ph => K a ph
  | .ret (.error _), _ => True
  | .step g k, ph => ∀ c t, V t → match g c t with
    | (.ok b, u) => ∃ ph', P.Follows ph (f t) ph' (f u) ∧ P.Tracks V f K (k b) ph'
    | (.error _, _) => True

variable {P : ReadCommitted σ κ φ ω δ} {V : τ → Prop} {f : τ → σ} {K : α → φ → Prop}
  {L : β → φ → Prop} {ph : φ}
  {b : Block τ ε α} {g : α → Block τ ε β}

theorem Tracks.bind (h : P.Tracks V f (fun a ph' => P.Tracks V f L (g a) ph') b ph) :
    P.Tracks V f L (b >>= g) ph := by
  induction b generalizing ph with
  | ret r =>
    cases r with
    | ok a => exact h
    | error e => trivial
  | step m k ih =>
    intro c t ht
    have h := h c t ht
    split at h
    · obtain ⟨ph', hf, h⟩ := h
      exact ⟨ph', hf, ih _ h⟩
    · trivial

theorem tracks_call {e : ε} {m : τ → Except ε α × τ} (h : ∀ t a, V t → (m t).1 = .ok a →
    ∃ ph', P.Follows ph (f t) ph' (f (m t).2) ∧ K a ph') :
    P.Tracks V f K (Block.call e m) ph := by
  intro c t ht
  cases c with
  | true => trivial
  | false =>
    have h := fun a => h t a ht
    simp only [Bool.false_eq_true, if_false]
    generalize m t = x at h
    obtain ⟨r, u⟩ := x
    cases r with
    | ok a => exact h a rfl
    | error e => trivial

theorem tracks_quiet {e : ε} {m : τ → Except ε α × τ} (hm : ∀ t, f (m t).2 = f t)
    (h : ∀ t a, V t → (m t).1 = .ok a → K a ph) : P.Tracks V f K (Block.call e m) ph :=
  tracks_call fun t a ht ha => ⟨ph, .inl ⟨rfl, hm t⟩, h t a ht ha⟩

theorem tracks_observe {m : τ → α} (h : ∀ t, V t → K (m t) ph) :
    P.Tracks V f K (Block.observe m : Block τ ε α) ph :=
  fun _ t ht => ⟨ph, .inl ⟨rfl, rfl⟩, h t ht⟩

end ReadCommitted

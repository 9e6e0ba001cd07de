import Mathlib.Logic.Function.Basic

/-! Calls that share a key: each looks whether it is there, sets it if not, and then serves. -/

namespace Throttle

/-- Where a call stands that has looked at the key; `passed` when it found none. -/
inductive Phase
  | passed
  | marked
  | ended
  deriving DecidableEq, Repr

def Busy (ph : Option Phase) : Prop := ph = some .passed ∨ ph = some .marked

/-- The window of a call is open from its check until the key that it sets expires; it lists the
calls that have served meanwhile. -/
abbrev Windows := Nat → Option (List Nat)

variable {key : Bool} {phase : Nat → Option Phase} {window : Windows} {n : Nat}

def opened (window : Windows) (n : Nat) : Windows := Function.update window n (some [])

def served (window : Windows) (n : Nat) : Windows := fun m => (window m).map (n :: ·)

def closed (window : Windows) (n : Nat) : Windows := Function.update window n none

/-- The key expires, and with it the windows of the calls that have set it. -/
def expired (phase : Nat → Option Phase) (window : Windows) : Windows :=
  fun m => if phase m = some .passed then window m else none

structure Kept (key : Bool) (phase : Nat → Option Phase) (window : Windows) : Prop where
  alone : ∀ {m n}, Busy (phase m) → Busy (phase n) → m = n
  own : ∀ {m n l}, Busy (phase n) → window m = some l → m = n
  shut : ∀ {m l}, window m = some l → phase m = some .passed ∨ key = true
  sent : ∀ {m l}, window m = some l → l = [] ∨ l = [m] ∧ ¬ Busy (phase m)

theorem Kept.once (h : Kept key phase window) {l : List Nat} (hn : window n = some l) :
    l = [] ∨ l = [n] := (h.sent hn).imp_right And.left

@[simp] theorem busy_passed : Busy (some .passed) := .inl rfl
@[simp] theorem busy_marked : Busy (some .marked) := .inr rfl
@[simp] theorem not_busy_ended : ¬ Busy (some .ended) := by simp [Busy]
@[simp] theorem not_busy_none : ¬ Busy none := by simp [Busy]

theorem busy_ended {m : Nat} (h : Busy (Function.update phase n (some .ended) m)) :
    m ≠ n ∧ Busy (phase m) := by
  by_cases hmn : m = n
  · rw [hmn, Function.update_self] at h
    exact absurd h not_busy_ended
  · rw [Function.update_of_ne hmn] at h
    exact ⟨hmn, h⟩

theorem kept_start : Kept key (fun _ => none) (fun _ => none) where
  alone h := absurd h not_busy_none
  own h := absurd h not_busy_none
  shut := nofun
  sent := nofun

namespace Kept

theorem pass (h : Kept false phase window) (hfree : ∀ m, ¬ Busy (phase m)) :
    Kept false (Function.update phase n (some .passed)) (opened window n) := by
  have hclosed : ∀ m, window m = none := fun m => by
    refine Option.eq_none_iff_forall_ne_some.2 fun l hm => ?_
    rcases h.shut hm with hp | hk
    · exact hfree m (.inl hp)
    · cases hk
  have honly : ∀ {m l}, opened window n m = some l → m = n ∧ l = [] := fun {m l} hm => by
    by_cases hmn : m = n
    · subst hmn
      rw [opened, Function.update_self] at hm
      exact ⟨rfl, (Option.some.inj hm).symm⟩
    · rw [opened, Function.update_of_ne hmn, hclosed] at hm
      cases hm
  have hbusy : ∀ {m}, Busy (Function.update phase n (some .passed) m) → m = n := fun {m} hm => by
    by_contra hmn
    rw [Function.update_of_ne hmn] at hm
    exact hfree m hm
  exact {
    alone := fun hm hn => (hbusy hm).trans (hbusy hn).symm
    own := fun hn hm => (honly hm).1.trans (hbusy hn).symm
    shut := fun hm => by
      obtain ⟨rfl, -⟩ := honly hm
      exact .inl (Function.update_self ..)
    sent := fun hm => .inl (honly hm).2 }

theorem mark (h : Kept key phase window) (hn : phase n = some .passed) :
    Kept true (Function.update phase n (some .marked)) window := by
  have hbusy : ∀ {m}, Busy (Function.update phase n (some .marked) m) → Busy (phase m) :=
    fun {m} hm => by
      by_cases hmn : m = n
      · rw [hmn, hn]
        exact busy_passed
      · rwa [Function.update_of_ne hmn] at hm
  exact {
    alone := fun hm hn => h.alone (hbusy hm) (hbusy hn)
    own := fun hn hm => h.own (hbusy hn) hm
    shut := fun _ => .inr rfl
    sent := fun hm => (h.sent hm).imp_right fun hs => ⟨hs.1, fun hb => hs.2 (hbusy hb)⟩ }

theorem ended (h : Kept key phase window) (hn : phase n ≠ some .passed) :
    Kept key (Function.update phase n (some .ended)) window where
  alone hm hn := h.alone (busy_ended hm).2 (busy_ended hn).2
  own hn hm := h.own (busy_ended hn).2 hm
  shut {m l} hm := by
    refine (h.shut hm).imp_left fun hp => ?_
    have hmn : m ≠ n := fun hmn => hn (hmn ▸ hp)
    rwa [Function.update_of_ne hmn]
  sent hm := (h.sent hm).imp_right fun hs => ⟨hs.1, fun hb => hs.2 (busy_ended hb).2⟩

theorem serve (h : Kept key phase window) (hn : phase n = some .marked) :
    Kept key (Function.update phase n (some .ended)) (served window n) := by
  have hb : Busy (phase n) := .inr hn
  have hended : ∀ m, ¬ Busy (Function.update phase n (some .ended) m) := fun m hm =>
    (busy_ended hm).1 (h.alone (busy_ended hm).2 hb)
  have hone : ∀ {m l}, served window n m = some l → l = [m] ∧ key = true := fun {m l} hm => by
    obtain ⟨l, hl, rfl⟩ := Option.map_eq_some_iff.1 hm
    obtain rfl := h.own hb hl
    rcases h.sent hl with rfl | ⟨-, hnot⟩
    · refine ⟨rfl, (h.shut hl).resolve_left fun hp => ?_⟩
      rw [hn] at hp
      cases hp
    · exact absurd hb hnot
  exact {
    alone := fun hm => absurd hm (hended _)
    own := fun hm => absurd hm (hended _)
    shut := fun hm => .inr (hone hm).2
    sent := fun hm => .inr ⟨(hone hm).1, hended _⟩ }

theorem drop (h : Kept key phase window) (hn : phase n = some .passed) :
    Kept key (Function.update phase n (some .ended)) (closed window n) := by
  have hb : Busy (phase n) := .inl hn
  have hclosed : ∀ {m l}, closed window n m ≠ some l := fun {m l} hm => by
    by_cases hmn : m = n
    · rw [hmn, closed, Function.update_self] at hm
      cases hm
    · rw [closed, Function.update_of_ne hmn] at hm
      exact hmn (h.own hb hm)
  have hended : ∀ m, ¬ Busy (Function.update phase n (some .ended) m) := fun m hm =>
    (busy_ended hm).1 (h.alone (busy_ended hm).2 hb)
  exact {
    alone := fun hm => absurd hm (hended _)
    own := fun hm => absurd hm (hended _)
    shut := fun hm => absurd hm hclosed
    sent := fun hm => absurd hm hclosed }

theorem expire (h : Kept key phase window) : Kept false phase (expired phase window) := by
  have hpassed : ∀ {m l}, expired phase window m = some l →
      phase m = some .passed ∧ window m = some l := fun {m l} hm => by
    rw [expired] at hm
    split at hm
    · exact ⟨‹_›, hm⟩
    · cases hm
  exact {
    alone := h.alone
    own := fun hn hm => h.own hn (hpassed hm).2
    shut := fun hm => .inl (hpassed hm).1
    sent := fun hm => h.sent (hpassed hm).2 }

end Kept
end Throttle

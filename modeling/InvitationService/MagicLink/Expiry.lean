import InvitationService.MagicLink.RateLimit
import Mathlib.Algebra.Order.PUnit
import Mathlib.Algebra.Order.Group.Multiset

namespace InvitationService.GuestMagicLink

open Resumption

/-! The expiry of the counters: when a window ends, and when it never does. -/

section

variable {dep : Deployment} {ip key : String} {s t : LinkWorld} {q : LinkCall}
  {N n : Multiset String}

def Expiring (s : LinkWorld) (N : Multiset String) : Prop :=
  ∀ key c, s.counters key = some c → 0 < c.count ∧ match c.expiresAt with
    | some due => due ≤ s.world.now + rateLimitWindow
    | none => key ∈ N

theorem Expiring.of_eq (h : Expiring s N) (hnow : s.world.now ≤ t.world.now)
    (hcounters : ∀ key c, t.counters key = some c → s.counters key = some c) : Expiring t N := by
  intro key c hc
  obtain ⟨hcount, hdue⟩ := h key c (hcounters key c hc)
  refine ⟨hcount, ?_⟩
  split <;> rename_i heq <;> rw [heq] at hdue
  · exact hdue.trans (Nat.add_le_add_right hnow _)
  · exact hdue

theorem Expiring.meanwhile (h : Expiring s N) (hst : Meanwhile s t) : Expiring t N := by
  cases hst with
  | world hnow => exact h.of_eq hnow fun _ _ hc => hc
  | expiry he =>
    cases he with
    | @expire expired _ _ _ _ =>
      refine h.of_eq (Nat.le_refl _) fun key c hc => ?_
      by_cases hkey : key = expired
      · subst hkey
        simp at hc
      · simpa only [Function.update_of_ne hkey] using hc

theorem trades_first : Trades Expiring s 0 { s with
    counters := Function.update s.counters key (some (nextCounter s key)) }
    (if (nextCounter s key).count = 1 then {key} else 0) := by
  intro N h key' c hc
  by_cases hkey : key' = key
  · subst hkey
    simp only [Function.update_self, Option.some.injEq] at hc
    subst hc
    refine ⟨by rw [nextCounter_count]; exact Nat.succ_pos _, ?_⟩
    rw [nextCounter_expiresAt, nextCounter_count]
    cases hs : s.counters key' with
    | none => simp
    | some c =>
      obtain ⟨hcount, hdue⟩ := h key' c hs
      simpa [hcount.ne'] using hdue
  · simp only [Function.update_of_ne hkey] at hc
    obtain ⟨hcount, hdue⟩ := h key' c hc
    refine ⟨hcount, ?_⟩
    split <;> rename_i heq <;> rw [heq] at hdue
    · exact hdue
    · exact Multiset.mem_add.2 (.inr (by simpa using hdue))

theorem trades_expire : Trades Expiring s {key} { s with
    counters := Function.update s.counters key ((s.counters key).map fun c =>
      { c with expiresAt := some (s.world.now + rateLimitWindow) }) } 0 := by
  intro N h key' c hc
  by_cases hkey : key' = key
  · subst hkey
    simp only [Function.update_self, Option.map_eq_some_iff] at hc
    obtain ⟨c, hs, rfl⟩ := hc
    exact ⟨(h key' c hs).1, Nat.le_refl _⟩
  · simp only [Function.update_of_ne hkey] at hc
    obtain ⟨hcount, hdue⟩ := h key' c hc
    refine ⟨hcount, ?_⟩
    split <;> rename_i heq <;> rw [heq] at hdue
    · exact hdue
    · simpa [hkey] using hdue

theorem expiring_spends : (q.request dep).Spends Expiring (fun r m => r = .ok () → m = 0) 0 := by
  have hrecord : ∀ {result : InternalResult} {channel : Option Channel} {m : Multiset String}
      {F : Except Exception Unit → Multiset String → Prop}, F (.ok ()) m →
      (perform (q.record dep result channel)).Spends Expiring F m := fun hF =>
    record_spends (fun _ _ _ _ h => h.of_eq (Nat.le_refl _) fun _ _ hc => hc) hF
  refine request_spends (P := fun m => m = 0) (isRateLimited_spends (fun _ => rfl) fun ip _ => ?_)
    (fun _ _ _ _ hm => hrecord ⟨rfl, fun _ => hm⟩) (fun userId tenantId normalized m hm => ?_)
  · refine spends_perform fun s N _ => post_incr ⟨0, .of_move fun _ h => h, nofun⟩
      ⟨_, trades_first, ?_⟩
    dsimp only
    split_ifs with hone
    · refine spends_perform fun s N _ => Block.post_call.2 ⟨?_, 0, trades_expire, rfl⟩
      exact ⟨_, .of_move fun _ h => h, nofun⟩
    · cases decide (rateLimitMaxPerWindow < (nextCounter s (rateLimitKey ip)).count) with
      | true => exact fun _ => hrecord fun _ => rfl
      | false => rfl
  · refine spends_perform fun s N _ => Block.post_call.2 ⟨⟨m, .of_move fun _ h => h, hm⟩, m, ?_, ?_⟩
    · exact .of_move fun _ h => h.of_eq (Nat.le_refl _) fun _ _ hc => hc
    · exact hrecord ⟨rfl, fun _ => hm⟩

end

section

variable {dep : Deployment} {ip : String} {s₀ s : LinkWorld}
  {ts : List (System.Thread (Nat → Bool) LinkWorld Exception (Request ⊕ LinkCall))}

def Expires (s : LinkWorld) : Prop :=
  ∀ key c, s.counters key = some c →
    0 < c.count ∧ ∃ due, c.expiresAt = some due ∧ due ≤ s.world.now + rateLimitWindow

theorem expiring_zero : Expiring s 0 ↔ Expires s := by
  refine forall₃_congr fun key c _ => and_congr_right fun _ => ?_
  cases c.expiresAt with
  | none => simp
  | some due => simp

/-- Unless a request for a link is under way or has failed, every counter expires within the
hour: nobody is turned away for longer. -/
theorem counters_expire (hs : (recovery dep).Interleaved s₀ ts s) (h₀ : Expires s₀)
    (hend : ∀ x ∈ ts, x.call.isRight → x.rest = .ret (.ok ())) : Expires s := by
  obtain ⟨cs, hcs, hrest, hI⟩ := (links_meanwhile hs).credits (n := fun _ => 0) (expiring_zero.2 h₀)
    (fun _ _ _ hI he => hI.meanwhile he)
    (fun _ _ _ hI _ => by rw [zero_add]; exact hI.of_eq (Nat.le_refl _) fun _ _ hc => hc)
    fun _ => expiring_spends
  have hzero : (cs.map Prod.snd).sum = 0 :=
    System.credits_spent (F := fun _ r m => r = .ok () → m = 0) hrest (fun _ _ h => h rfl) <|
      hcs ▸ System.forall_right? (Q := fun p => p = .ret (.ok ())) hend
  rw [hzero] at hI
  exact expiring_zero.1 hI

theorem counters_expire_once : (requested 1).counters (rateLimitKey "127.0.0.1") ≠ none ∧
    Expires (requested 1) := by
  have hstart : (recovery plainDeployment).Interleaved { world := guestWorld } []
    { world := guestWorld } := .start
  refine ⟨by decide +kernel, counters_expire (hstart.run (.inr guestCall) trivial fun _ _ => false)
    (fun _ _ h => absurd h nofun) ?_⟩
  intro x hx _
  rw [List.mem_singleton.1 hx]
  exact congrArg Prog.ret (by decide +kernel)

end

section

variable {dep : Deployment} {ip key : String} {s t : LinkWorld} {q : LinkCall} {n base : Nat}

structure Barred (ip : String) (n base : Nat) (s : LinkWorld) : Prop where
  links : linksFor ip s = base
  counter : ∃ m, n ≤ m ∧ s.counters (rateLimitKey ip) = some ⟨m, none⟩

theorem Barred.of_eq (h : Barred ip n base s)
    (hcounter : t.counters (rateLimitKey ip) = s.counters (rateLimitKey ip))
    (hsent : linksFor ip t = linksFor ip s) : Barred ip n base t :=
  ⟨hsent.trans h.links, hcounter ▸ h.counter⟩

theorem Barred.meanwhile (h : Barred ip n base s) (hst : Meanwhile s t) : Barred ip n base t := by
  cases hst with
  | world hnow => exact h.of_eq rfl rfl
  | expiry he =>
    cases he with
    | @expire expired _ _ hc _ =>
      refine h.of_eq (Function.update_of_ne ?_ _ _) rfl
      rintro rfl
      obtain ⟨m, -, hm⟩ := h.counter
      rw [hm] at hc
      cases hc

theorem Barred.incr (h : Barred ip n base s) : Barred ip n base { s with
    counters := Function.update s.counters (rateLimitKey ip)
      (some (nextCounter s (rateLimitKey ip))) } := by
  obtain ⟨m, hm, hc⟩ := h.counter
  exact ⟨h.links, m + 1, by omega, by simp [nextCounter, hc]⟩

theorem barred_spends (hstore : dep.hasRateLimitStore = true) (hn : rateLimitMaxPerWindow ≤ n) :
    (q.request dep).Spends (fun s (_ : Unit) => Barred ip n base s) (fun _ _ => True) () := by
  have hrecord : ∀ {result : InternalResult} {channel : Option Channel}
      {F : Except Exception Unit → Unit → Prop}, F (.ok ()) () →
      (perform (q.record dep result channel)).Spends (fun s (_ : Unit) =>
        Barred ip n base s) F () :=
    fun hF => record_spends (fun _ _ _ _ h => h.of_eq rfl rfl) hF
  refine request_spends (P := fun _ => (q.client.ip.filter fun x => x ≠ "") ≠ some ip)
    (isRateLimited_spends (fun hnone => ?_) fun ip' hsome => ?_)
    (fun _ _ _ _ _ => hrecord ⟨rfl, trivial⟩) (fun userId tenantId normalized m hm => ?_)
  · simp only [hstore, Bool.and_true] at hnone
    rw [hnone]
    exact nofun
  · simp only [hstore, Bool.and_true] at hsome
    by_cases hip : ip' = ip
    · subst hip
      refine spends_perform fun s N hI => post_incr ⟨(), .of_move fun _ h => h, trivial⟩
        ⟨(), .of_move fun _ h => h.incr, ?_⟩
      obtain ⟨m, hm, hc⟩ := hI.counter
      have hcount : (nextCounter s (rateLimitKey ip')).count = m + 1 := by simp [nextCounter, hc]
      have hlimited : rateLimitMaxPerWindow < m + 1 := by omega
      have hone : m + 1 ≠ 1 := by
        have hpos : 0 < rateLimitMaxPerWindow := by decide
        omega
      simp only [hcount, if_neg hone, hlimited, decide_true]
      exact fun _ => hrecord trivial
    · have hother : rateLimitKey ip ≠ rateLimitKey ip' := fun he => hip (rateLimitKey_inj.1 he).symm
      have hpass : (q.client.ip.filter fun x => x ≠ "") ≠ some ip := by
        rw [hsome]
        exact fun he => hip (Option.some.inj he)
      refine spends_perform fun s N hI => post_incr ⟨(), .of_move fun _ h => h, trivial⟩
        ⟨(), .of_move fun _ h => h.of_eq (Function.update_of_ne hother _ _) rfl, ?_⟩
      dsimp only
      split_ifs
      · refine spends_perform fun s N hI =>
          Block.post_call.2 ⟨⟨(), .of_move fun _ h => h, trivial⟩, ?_⟩
        exact ⟨(), .of_move fun _ h => h.of_eq (Function.update_of_ne hother _ _) rfl, hpass⟩
      · cases decide (rateLimitMaxPerWindow < (nextCounter s (rateLimitKey ip')).count) with
        | true => exact fun _ => hrecord trivial
        | false => exact hpass
  · refine spends_perform fun s N _ => Block.post_call.2
      ⟨⟨(), .of_move fun _ h => h, hm⟩, (), ?_, ?_⟩
    · refine .of_move fun _ h => h.of_eq rfl ?_
      have hne : (q.payload userId tenantId normalized).ip ≠ some ip := hm
      simp [linksFor, hne]
    · exact hrecord ⟨rfl, trivial⟩

end

section

variable {dep : Deployment} {ip : String} {n : Nat} {s₀ s : LinkWorld}
  {ts : List (System.Thread (Nat → Bool) LinkWorld Exception (Request ⊕ LinkCall))}

/-- A counter at the limit that was left without an expiry never expires: no link is requested
from its address again, however much time passes. -/
theorem barred_forever (hs : (recovery dep).Interleaved s₀ ts s)
    (hstore : dep.hasRateLimitStore = true)
    (hc : s₀.counters (rateLimitKey ip) = some ⟨n, none⟩) (hn : rateLimitMaxPerWindow ≤ n) :
    linksFor ip s = linksFor ip s₀ ∧
      ∃ m, n ≤ m ∧ s.counters (rateLimitKey ip) = some ⟨m, none⟩ := by
  obtain ⟨cs, -, -, hI⟩ := (links_meanwhile hs).credits (n := fun _ => ())
    (I := fun s (_ : Unit) => Barred ip n (linksFor ip s₀) s) ⟨rfl, n, Nat.le_refl _, hc⟩
    (fun _ _ _ hI he => hI.meanwhile he) (fun _ _ _ hI _ => hI.of_eq rfl rfl)
    fun _ => barred_spends hstore hn
  exact ⟨hI.links, hI.counter⟩

def stuck : LinkWorld :=
  requestedFrom ((guestCall.request plainDeployment).run (fun i _ => decide (i = 1))
    ((links plainDeployment).arrive guestCall { world := guestWorld })).2 9

def stuckLater : LinkWorld :=
  requestedFrom { stuck with world := { stuck.world with now := 2 * rateLimitWindow } } 1

theorem barred_forever_stuck : (∃ ts, (recovery plainDeployment).Interleaved
      { world := guestWorld } ts stuck) ∧
    (∃ ts, (recovery plainDeployment).Interleaved stuck ts stuckLater ∧ ts.length = 1) ∧
    stuckLater.world.now = 2 * rateLimitWindow ∧
    linksFor "127.0.0.1" stuckLater = linksFor "127.0.0.1" stuck := by
  have hstart : (recovery plainDeployment).Interleaved { world := guestWorld } []
    { world := guestWorld } := .start
  obtain ⟨ts, hts, -⟩ := requestedFrom_run
    (hstart.run (.inr guestCall) trivial fun i _ => decide (i = 1)) 9
  have hnow : stuck.world.now = 0 := by decide +kernel
  have hpass : (recovery plainDeployment).env stuck
      { stuck with world := { stuck.world with now := 2 * rateLimitWindow } } :=
    .inl ⟨_, .pass (n := 2 * rateLimitWindow)
      (by rw [worldPart_get, hnow]; exact Nat.zero_le _), rfl⟩
  obtain ⟨us, hus, hcalls⟩ := requestedFrom_run (.env .start hpass) 1
  refine ⟨⟨ts, hts⟩, ⟨us, hus, by simpa using congrArg List.length hcalls⟩, by decide +kernel, ?_⟩
  exact (barred_forever (n := 10) hus rfl (by decide +kernel) (Nat.le_refl _)).1

end
end InvitationService.GuestMagicLink

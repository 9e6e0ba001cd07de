import InvitationService.MagicLink.Phases

namespace InvitationService.GuestMagicLink

open Resumption

/-! The limit on the requests from one address. -/

section

variable {dep : Deployment} {ip key : String} {start base k N : Nat} {s t : LinkWorld}
  {q : LinkCall}

def linksFor (ip : String) (s : LinkWorld) : Nat := s.sent.countP (·.ip = some ip)

def admitted (ip : String) (s : LinkWorld) : Nat :=
  min rateLimitMaxPerWindow ((s.counters (rateLimitKey ip)).elim 0 (·.count))

structure Windows (ip : String) (start k : Nat) (s : LinkWorld) : Prop where
  past : start + k * rateLimitWindow ≤ s.world.now
  ahead : ∀ n due, s.counters (rateLimitKey ip) = some ⟨n, some due⟩ →
    start + (k + 1) * rateLimitWindow ≤ due

def WithinLimit (ip : String) (start base : Nat) (s : LinkWorld) (N : Nat) : Prop :=
  ∃ k, Windows ip start k s ∧
    linksFor ip s + N ≤ base + rateLimitMaxPerWindow * k + admitted ip s

theorem WithinLimit.of_eq (h : WithinLimit ip start base s N) (hnow : s.world.now ≤ t.world.now)
    (hcounter : t.counters (rateLimitKey ip) = s.counters (rateLimitKey ip))
    (hsent : linksFor ip t = linksFor ip s) : WithinLimit ip start base t N := by
  obtain ⟨k, ⟨hpast, hahead⟩, hle⟩ := h
  refine ⟨k, ⟨hpast.trans hnow, by rwa [hcounter]⟩, ?_⟩
  rwa [hsent, admitted, hcounter]

theorem WithinLimit.expire (h : WithinLimit ip start base s N) {n due : Nat}
    (hc : s.counters key = some ⟨n, some due⟩) (hdue : due ≤ s.world.now) :
    WithinLimit ip start base { s with counters := Function.update s.counters key none } N := by
  by_cases hkey : key = rateLimitKey ip
  · subst hkey
    obtain ⟨k, ⟨hpast, hahead⟩, hle⟩ := h
    refine ⟨k + 1, ⟨(hahead n due hc).trans hdue, by simp⟩, ?_⟩
    have hadmitted : admitted ip s ≤ rateLimitMaxPerWindow := min_le_left _ _
    simp only [linksFor, admitted, Function.update_self, Option.elim_none, Nat.min_zero,
      Nat.mul_add] at hle hadmitted ⊢
    omega
  · exact h.of_eq (Nat.le_refl _) (Function.update_of_ne (Ne.symm hkey) _ _) rfl

theorem WithinLimit.meanwhile (h : WithinLimit ip start base s N) (hst : Meanwhile s t) :
    WithinLimit ip start base t N := by
  cases hst with
  | world hnow => exact h.of_eq hnow rfl rfl
  | expiry he =>
    cases he with
    | expire hc hdue => exact h.expire hc hdue

theorem trades_incr : Trades (WithinLimit ip start base) s 0 { s with
    counters := Function.update s.counters (rateLimitKey ip)
      (some (nextCounter s (rateLimitKey ip))) }
    (if (nextCounter s (rateLimitKey ip)).count ≤ rateLimitMaxPerWindow then 1 else 0) := by
  rintro N ⟨k, ⟨hpast, hahead⟩, hle⟩
  refine ⟨k, ⟨hpast, ?_⟩, ?_⟩
  · intro n due hn
    simp only [Function.update_self] at hn
    have hexpires := (congrArg Counter.expiresAt (Option.some.inj hn)).symm.trans
      (nextCounter_expiresAt s (rateLimitKey ip))
    obtain ⟨c, hc, hdue⟩ := Option.bind_eq_some_iff.1 hexpires.symm
    exact hahead c.count due (by rw [hc, ← hdue])
  · simp only [linksFor, admitted, Function.update_self, Option.elim_some,
      nextCounter_count] at hle ⊢
    split <;> omega

theorem trades_incr_of_ne {ip' : String} (h : ip' ≠ ip) : Trades (WithinLimit ip start base) s 0
    { s with
      counters := Function.update s.counters (rateLimitKey ip')
        (some (nextCounter s (rateLimitKey ip'))) } 0 :=
  .of_move fun _ hI => hI.of_eq (Nat.le_refl _)
    (Function.update_of_ne (fun he => h (rateLimitKey_inj.1 he).symm) _ _) rfl

theorem WithinLimit.expiry (h : WithinLimit ip start base s N) : WithinLimit ip start base { s with
    counters := Function.update s.counters key ((s.counters key).map fun c =>
      { c with expiresAt := some (s.world.now + rateLimitWindow) }) } N := by
  by_cases hkey : key = rateLimitKey ip
  · subst hkey
    obtain ⟨k, ⟨hpast, hahead⟩, hle⟩ := h
    refine ⟨k, ⟨hpast, ?_⟩, ?_⟩
    · intro n due hn
      simp only [Function.update_self, Option.map_eq_some_iff] at hn
      obtain ⟨c, -, hc⟩ := hn
      have hdue : s.world.now + rateLimitWindow = due :=
        Option.some.inj (congrArg Counter.expiresAt hc)
      rw [← hdue, Nat.add_mul, Nat.one_mul]
      omega
    · simp only [linksFor, admitted, Function.update_self] at hle ⊢
      cases hc : s.counters (rateLimitKey ip) <;> simpa [hc] using hle
  · exact h.of_eq (Nat.le_refl _) (Function.update_of_ne (Ne.symm hkey) _ _) rfl

variable {n : Nat}

theorem WithinLimit.recorded (metrics : Metrics) (lines : List LogLine) (N : Nat)
    (h : WithinLimit ip start base s N) :
    WithinLimit ip start base { s with metrics := metrics, lines := lines } N :=
  h.of_eq (Nat.le_refl _) rfl rfl

theorem expire_spends {F : Except Exception Unit → Nat → Prop} (hF : ∀ r, F r n) :
    (perform (LinkQuery.expire key rateLimitWindow)).Spends (WithinLimit ip start base) F n :=
  spends_perform fun _ _ _ => Block.post_call.2
    ⟨⟨n, .of_move fun _ h => h, hF _⟩, n, .of_move fun _ h => h.expiry, hF _⟩

theorem send_spends {payload : LinkRequestDTO} {F : Except Exception Unit → Nat → Prop}
    (hn : payload.ip = some ip → 1 ≤ n) (herr : F (.error (.dependency .kafka)) n)
    (hok : ∀ m, F (.ok ()) m) :
    (perform (LinkQuery.send payload)).Spends (WithinLimit ip start base) F n := by
  refine spends_perform fun s N _ => Block.post_call.2 ⟨⟨n, .of_move fun _ h => h, herr⟩, ?_⟩
  by_cases hip : payload.ip = some ip
  · refine ⟨n - 1, fun N' hI => ?_, hok _⟩
    obtain ⟨k, hk, hle⟩ := hI
    have hone := hn hip
    refine ⟨k, ⟨hk.past, hk.ahead⟩, ?_⟩
    simp only [linksFor, admitted, List.countP_cons_of_pos (p := fun x : LinkRequestDTO =>
      decide (x.ip = some ip)) (by simpa using hip)] at hle ⊢
    omega
  · refine ⟨n, .of_move fun N' hI => hI.of_eq (Nat.le_refl _) rfl ?_, hok _⟩
    simp [linksFor, hip]

theorem counted_spends (hstore : dep.hasRateLimitStore = true) (address : Option String) :
    (isRateLimited dep address).Spends (WithinLimit ip start base)
      (fun r m => r = .ok false → (address.filter fun x => x ≠ "") = some ip → 1 ≤ m) 0 := by
  refine isRateLimited_spends (fun hnone => ?_) fun ip' hsome => ?_
  · simp only [hstore, Bool.and_true] at hnone
    rw [hnone]
    exact nofun
  · simp only [hstore, Bool.and_true] at hsome
    rw [hsome]
    refine spends_perform fun s N _ => post_incr ⟨0, .of_move fun _ h => h, nofun⟩ ?_
    have hrest : ∀ count m, (ip' = ip → count ≤ rateLimitMaxPerWindow → 1 ≤ m) →
        if count = 1 then
          (perform (LinkQuery.expire (rateLimitKey ip') rateLimitWindow)).Spends
            (WithinLimit ip start base) (fun
              | .ok _, m' => Except.ok (ε := Exception) false = .ok false →
                  some ip' = some ip → 1 ≤ m'
              | .error e, m' => Except.error e = .ok false → some ip' = some ip → 1 ≤ m') m
        else Except.ok (ε := Exception) (decide (rateLimitMaxPerWindow < count)) = .ok false →
          some ip' = some ip → 1 ≤ m := by
      intro count m hm
      split_ifs with hone
      · refine expire_spends fun r => ?_
        cases r with
        | ok _ => exact fun _ hip => hm (Option.some.inj hip) (hone ▸ by decide)
        | error e => exact nofun
      · intro hfalse hip
        simp only [Except.ok.injEq, decide_eq_false_iff_not, Nat.not_lt] at hfalse
        exact hm (Option.some.inj hip) hfalse
    by_cases hip : ip' = ip
    · subst hip
      refine ⟨_, trades_incr, hrest _ _ fun _ hle => ?_⟩
      rw [if_pos hle]
    · exact ⟨0, trades_incr_of_ne hip, hrest _ _ fun h => absurd h hip⟩

theorem limited_spends (hstore : dep.hasRateLimitStore = true) :
    (q.request dep).Spends (WithinLimit ip start base) (fun _ _ => True) 0 := by
  have hrecord : ∀ {result : InternalResult} {channel : Option Channel} {m : Nat}
      {F : Except Exception Unit → Nat → Prop}, F (.ok ()) m →
      (perform (q.record dep result channel)).Spends (WithinLimit ip start base) F m := fun hF =>
    record_spends (fun _ _ _ _ h => h.recorded _ _ _) hF
  refine request_spends
    (P := fun m => (q.client.ip.filter fun x => x ≠ "") = some ip → 1 ≤ m)
    ((counted_spends hstore q.client.ip).mono fun r m hm => ?_)
    (fun _ _ _ _ _ => hrecord ⟨rfl, trivial⟩) (fun userId tenantId normalized m hm => ?_)
  · cases r with
    | error e => trivial
    | ok limited =>
      cases limited with
      | true => exact fun _ => hrecord trivial
      | false => exact hm rfl
  · exact send_spends hm hm fun _ => hrecord ⟨rfl, trivial⟩

end

section

variable {dep : Deployment} {ip : String} {s₀ s : LinkWorld}
  {ts : List (System.Thread (Nat → Bool) LinkWorld Exception (Request ⊕ LinkCall))}

/-- From one address no more links are requested than ten for every hour that has passed, and ten:
whatever requests come at once, and whatever fails. -/
theorem links_per_hour (hs : (recovery dep).Interleaved s₀ ts s)
    (hstore : dep.hasRateLimitStore = true)
    (hfree : s₀.counters (rateLimitKey ip) = none) :
    linksFor ip s ≤ linksFor ip s₀ +
      rateLimitMaxPerWindow * ((s.world.now - s₀.world.now) / rateLimitWindow + 1) := by
  have hstart : WithinLimit ip s₀.world.now (linksFor ip s₀) s₀ 0 := by
    refine ⟨0, ⟨by simp, ?_⟩, by simp⟩
    rw [hfree]
    exact nofun
  obtain ⟨cs, -, -, k, ⟨hpast, -⟩, hle⟩ := (links_meanwhile hs).credits (n := fun _ => 0) hstart
    (fun _ _ _ hI he => hI.meanwhile he)
    (fun _ _ _ hI _ => by rw [Nat.zero_add]; exact hI.of_eq (Nat.le_refl _) rfl rfl)
    fun _ => limited_spends hstore
  have hk : k ≤ (s.world.now - s₀.world.now) / rateLimitWindow := by
    rw [Nat.le_div_iff_mul_le (by decide)]
    omega
  have hadmitted : admitted ip s ≤ rateLimitMaxPerWindow := Nat.min_le_left _ _
  have hmul := Nat.mul_le_mul_left rateLimitMaxPerWindow hk
  rw [Nat.mul_add, Nat.mul_one]
  omega

theorem links_per_hour_eleven : linksFor "127.0.0.1" (requested 11) = 10 ∧
    linksFor "127.0.0.1" (requested 11) ≤ linksFor "127.0.0.1" { world := guestWorld } +
      rateLimitMaxPerWindow * (((requested 11).world.now - 0) / rateLimitWindow + 1) := by
  obtain ⟨ts, hts, -⟩ := requested_run 11
  exact ⟨by decide +kernel, links_per_hour hts rfl rfl⟩

end

end InvitationService.GuestMagicLink

import InvitationService.MagicLink.Phases
import Mathlib.Algebra.Group.Prod
import Mathlib.Algebra.Order.Group.Multiset

namespace InvitationService.GuestMagicLink

open Resumption

/-! What the metrics and the log say of the requests. -/

section

variable {dep : Deployment} {s t : LinkWorld} {q : LinkCall} {m : Metrics} {lines : List LogLine}
  {N : Multiset String × Multiset String}

structure Metrics.Counts (m : Metrics) (lines : List LogLine) : Prop where
  total : m.total = lines.length
  dispatched : m.dispatched = lines.countP (·.result = .dispatchQueued)
  byResult : ∀ result, m.byResult result = lines.countP (·.result = result)
  byChannel : ∀ channel, m.byChannel channel = lines.countP (·.channel = some channel)

theorem Metrics.Counts.record (h : m.Counts lines) (line : LogLine) :
    (m.record line.result line.channel).Counts (line :: lines) where
  total := congrArg (· + 1) h.total
  dispatched := by
    simp only [Metrics.record, List.countP_cons, decide_eq_true_eq, h.dispatched]
    split_ifs <;> rfl
  byResult result := by
    by_cases hresult : line.result = result
    · subst hresult
      simp [Metrics.record, h.byResult]
    · simp [Metrics.record, hresult, h.byResult, Function.update_of_ne (Ne.symm hresult)]
  byChannel channel := by
    unfold Metrics.record
    cases hline : line.channel with
    | none => simp [hline, h.byChannel]
    | some c =>
      by_cases hc : c = channel
      · subst hc
        simp [hline, h.byChannel]
      · simp [hline, hc, h.byChannel, Function.update_of_ne (Ne.symm hc)]

/-- The requests of which a line says that a link was requested. -/
def queued (s : LinkWorld) : List String :=
  (s.lines.filter (·.result = .dispatchQueued)).map (·.correlationId)

/-- `N` are the requests not yet recorded, and those of which a link is sent that no line tells of
yet. -/
structure Balance (s : LinkWorld) (N : Multiset String × Multiset String) : Prop where
  counts : s.metrics.Counts s.lines
  requests : (s.lines.map (·.correlationId) : Multiset String) + N.1 = s.calls.map (·.correlationId)
  links : (queued s : Multiset String) + N.2 = s.sent.map (·.correlationId)

theorem Balance.of_eq (h : Balance s N) (hmetrics : t.metrics = s.metrics)
    (hlines : t.lines = s.lines)
    (hcalls : t.calls = s.calls) (hsent : t.sent = s.sent) : Balance t N := by
  refine ⟨by rw [hmetrics, hlines]; exact h.counts, by rw [hlines, hcalls]; exact h.requests, ?_⟩
  rw [queued, hlines, hsent]
  exact h.links

theorem Balance.meanwhile (h : Balance s N) (hst : Meanwhile s t) : Balance t N := by
  cases hst with
  | world _ => exact h.of_eq rfl rfl rfl rfl
  | expiry he => cases he; exact h.of_eq rfl rfl rfl rfl

theorem trades_record {result : InternalResult} {channel : Option Channel} {n : Multiset String}
    (hn : n = if result = .dispatchQueued then {q.correlationId} else 0) :
    Trades Balance s ({q.correlationId}, n) { s with
      metrics := s.metrics.record result channel
      lines := ⟨result, q.correlationId, q.fingerprint dep, channel⟩ :: s.lines } 0 := by
  rintro ⟨a, b⟩ ⟨hcounts, hrequests, hlinks⟩
  refine ⟨hcounts.record ⟨result, _, _, channel⟩, ?_, ?_⟩
  · simpa [← Multiset.cons_coe, add_left_comm] using hrequests
  · subst hn
    by_cases hresult : result = .dispatchQueued
    · simpa [queued, hresult, ← Multiset.cons_coe, add_left_comm] using hlinks
    · simpa [queued, hresult] using hlinks

theorem recorded_spends {result : InternalResult} {channel : Option Channel} {n : Multiset String}
    {F : Except Exception Unit → Multiset String × Multiset String → Prop}
    (hn : n = if result = .dispatchQueued then {q.correlationId} else 0) (hF : F (.ok ()) 0) :
    (perform (q.record dep result channel)).Spends Balance F ({q.correlationId}, n) :=
  spends_perform fun _ _ _ => Block.post_record.2 ⟨0, trades_record hn, hF⟩

theorem balance_spends :
    (q.request dep).Spends Balance (fun r m => r = .ok () → m = 0) ({q.correlationId}, 0) := by
  refine request_spends (P := fun m => m = ({q.correlationId}, 0)) ?_
    (fun result channel m hresult hm => ?_) (fun userId tenantId normalized m hm => ?_)
  · refine isRateLimited_spends (fun _ => rfl) fun ip _ => ?_
    refine spends_perform fun s N _ => post_incr ⟨_, .of_move fun _ h => h, nofun⟩
      ⟨_, .of_move fun _ h => h.of_eq rfl rfl rfl rfl, ?_⟩
    dsimp only
    split_ifs
    · refine spends_perform fun s N _ => Block.post_call.2
        ⟨⟨_, .of_move fun _ h => h, nofun⟩, _, .of_move fun _ h => h.of_eq rfl rfl rfl rfl, rfl⟩
    · cases decide (rateLimitMaxPerWindow < (nextCounter s (rateLimitKey ip)).count) with
      | true => exact fun _ => recorded_spends (by simp) fun _ => rfl
      | false => rfl
  · subst hm
    exact recorded_spends (by simp [hresult]) ⟨rfl, fun _ => rfl⟩
  · subst hm
    refine spends_perform fun s N _ => Block.post_call.2 ⟨⟨_, .of_move fun _ h => h, rfl⟩,
      ({q.correlationId}, {q.correlationId}), ?_, recorded_spends (by simp) ⟨rfl, fun _ => rfl⟩⟩
    rintro ⟨a, b⟩ ⟨hcounts, hrequests, hlinks⟩
    refine ⟨hcounts, hrequests, ?_⟩
    simpa [queued, ← Multiset.cons_coe, add_left_comm, LinkCall.payload] using hlinks

end

section

variable {dep : Deployment} {s₀ s : LinkWorld}
  {ts : List (System.Thread (Nat → Bool) LinkWorld Exception (Request ⊕ LinkCall))}

/-- However the requests for a link interleave, the metrics are those of the log, no request is
logged twice and no line tells of a link that was not sent; when all have ended well, each request
is logged once, and just the links sent are told of. -/
theorem requests_accounted (hs : (recovery dep).Interleaved s₀ ts s) (h₀ : Balance s₀ 0) :
    s.metrics.Counts s.lines ∧
    (s.lines.map (·.correlationId)).Subperm (s.calls.map (·.correlationId)) ∧
    (queued s).Subperm (s.sent.map (·.correlationId)) ∧
    ((∀ x ∈ ts, x.call.isRight → x.rest = .ret (.ok ())) →
      (s.lines.map (·.correlationId)).Perm (s.calls.map (·.correlationId)) ∧
      (queued s).Perm (s.sent.map (·.correlationId))) := by
  obtain ⟨cs, hcs, hrest, hI⟩ := (links_meanwhile hs).credits
    (n := fun q : LinkCall => (({q.correlationId} : Multiset String), (0 : Multiset String)))
    (F := fun _ r m => r = .ok () → m = 0) h₀ (fun _ _ _ hI he => hI.meanwhile he)
    (fun q s N hI _ => ⟨hI.counts, by
      simpa [links, ← Multiset.cons_coe, add_left_comm] using hI.requests, by
      simpa [links, queued] using hI.links⟩)
    fun _ => balance_spends
  refine ⟨hI.counts, Multiset.coe_le.1 (hI.requests ▸ Multiset.le_add_right _ _),
    Multiset.coe_le.1 (hI.links ▸ Multiset.le_add_right _ _), fun hend => ?_⟩
  have hzero : (cs.map Prod.snd).sum = 0 :=
    System.credits_spent (F := fun _ r m => r = .ok () → m = 0) hrest (fun _ _ h => h rfl) <|
      hcs ▸ System.forall_right? (Q := fun p => p = .ret (.ok ())) hend
  rw [hzero] at hI
  exact ⟨Multiset.coe_eq_coe.1 (by simpa using hI.requests),
    Multiset.coe_eq_coe.1 (by simpa using hI.links)⟩

theorem requests_accounted_twice : (requested 2).metrics.Counts (requested 2).lines ∧
    ((requested 2).lines.map (·.correlationId)).Subperm
      ((requested 2).calls.map (·.correlationId)) ∧
    (queued (requested 2)).length = 2 := by
  obtain ⟨ts, hts, -⟩ := requested_run 2
  obtain ⟨hcounts, hlines, -, -⟩ := requests_accounted hts
    ⟨⟨rfl, rfl, fun _ => rfl, fun _ => rfl⟩, rfl, rfl⟩
  exact ⟨hcounts, hlines, by decide +kernel⟩

end
end InvitationService.GuestMagicLink

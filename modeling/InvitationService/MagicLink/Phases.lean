import InvitationService.Lib.Credit
import InvitationService.MagicLink.Composition

namespace InvitationService.GuestMagicLink

open Resumption

/-! The phases of a request for a magic link: it is counted, it looks for the guest, it sends the
link, and it records how it ended. -/

section

variable {dep : Deployment} {q : LinkCall} {s : LinkWorld} {key : String}
  {Q : Except Exception Unit → LinkWorld → Prop}

def nextCounter (s : LinkWorld) (key : String) : Counter :=
  match s.counters key with
  | some c => { c with count := c.count + 1 }
  | none => { count := 1 }

theorem post_incr {Q : Except Exception Nat → LinkWorld → Prop}
    (herr : Q (.error (.dependency .cache)) s)
    (hok : Q (.ok (nextCounter s key).count) { s with
      counters := Function.update s.counters key (some (nextCounter s key)) }) :
    (LinkQuery.incr key).Post Q s :=
  Block.post_call.2 ⟨herr, hok⟩

theorem nextCounter_count (s : LinkWorld) (key : String) :
    (nextCounter s key).count = (s.counters key).elim 0 (·.count) + 1 := by
  unfold nextCounter
  cases s.counters key <;> rfl

theorem nextCounter_expiresAt (s : LinkWorld) (key : String) :
    (nextCounter s key).expiresAt = (s.counters key).bind (·.expiresAt) := by
  unfold nextCounter
  cases s.counters key <;> rfl

theorem rateLimitKey_inj {ip ip' : String} : rateLimitKey ip = rateLimitKey ip' ↔ ip = ip' :=
  String.append_right_inj _

theorem clock_looks : LinkQuery.clock.Looks := Block.moves_observe fun _ => rfl

theorem findMatches_looks (normalized : NormalizedIdentifier) (tenantId : TenantId) :
    ((findMatches dep.lower normalized tenantId).zoom worldPart).Looks := fun _ =>
  (Prog.post_zoom worldPart).2 (Block.post_call.2 ⟨rfl, rfl⟩)

end

section

variable {dep : Deployment} {q : LinkCall} {M : Type} [AddCommMonoid M] {I : LinkWorld → M → Prop}
  {P : M → Prop} {F G : Except Exception Unit → M → Prop} {n : M}

theorem record_spends {result : InternalResult} {channel : Option Channel}
    (hI : ∀ s metrics lines N, I s N → I { s with metrics := metrics, lines := lines } N)
    (hF : F (.ok ()) n) : (perform (q.record dep result channel)).Spends I F n :=
  spends_perform fun s _ _ => Block.post_record.2 ⟨n, .of_move fun N h => hI s _ _ N h, hF⟩

theorem isRateLimited_spends {address : Option String} {H : Except Exception Bool → M → Prop}
    (hfree : (address.filter fun x => x ≠ "" && dep.hasRateLimitStore) = none → H (.ok false) n)
    (hcount : ∀ ip, (address.filter fun x => x ≠ "" && dep.hasRateLimitStore) = some ip →
      (perform (LinkQuery.incr (rateLimitKey ip))).Spends I (fun
        | .ok count, m =>
          if count = 1 then
            (perform (LinkQuery.expire (rateLimitKey ip) rateLimitWindow)).Spends I (fun
              | .ok _, m' => H (.ok false) m'
              | .error e, m' => H (.error e) m') m
          else H (.ok (decide (rateLimitMaxPerWindow < count))) m
        | .error e, m => H (.error e) m) n) :
    (isRateLimited dep address).Spends I H n := by
  unfold isRateLimited
  split
  · rename_i hnone
    exact hfree hnone
  · rename_i ip hsome
    refine Prog.Spends.bind <| (hcount ip hsome).mono fun r m hm => ?_
    cases r with
    | error e => exact hm
    | ok count =>
      dsimp only at hm ⊢
      split_ifs at hm ⊢ with hone
      · refine Prog.Spends.bind <| hm.mono fun r m' hm' => ?_
        subst hone
        cases r with
        | ok _ => exact hm'
        | error e => exact hm'
      · exact hm

theorem lookup_spends (hfail : ∀ e m, P m → G (.error e) m)
    (hrecord : ∀ result channel m, result ≠ .dispatchQueued → P m →
      (perform (q.record dep result channel)).Spends I G m)
    (hsend : ∀ userId tenantId normalized m, P m →
      (perform (LinkQuery.send (q.payload userId tenantId normalized))).Spends I (fun
        | .ok _, m' => (perform (q.record dep .dispatchQueued normalized.channel)).Spends I G m'
        | .error e, m' => G (.error e) m') m)
    (normalized : NormalizedIdentifier) (hn : P n) :
    (q.lookup dep normalized).Spends I G n := by
  unfold LinkCall.lookup
  split
  · exact hrecord _ _ _ nofun hn
  · refine spends_look (findMatches_looks _ _) (fun e => hfail e n hn) fun found => ?_
    split
    · exact hrecord _ _ _ nofun hn
    · refine spends_look clock_looks (fun e => hfail e n hn) fun now => ?_
      split
      · refine spends_look clock_looks (fun e => hfail e n hn) fun now => ?_
        refine hrecord _ _ _ ?_ hn
        unfold ineligibleReason
        split_ifs <;> exact nofun
      · unfold LinkCall.dispatch
        split
        · exact hrecord _ _ _ nofun hn
        · refine Prog.Spends.bind <| (hsend _ _ _ _ hn).mono fun r m hr => ?_
          cases r with
          | ok _ => exact hr
          | error e => exact hr

/-- A request spends what its phases spend: `P` is the credit of one that was not turned away. -/
theorem request_spends
    (hlimit : (isRateLimited dep q.client.ip).Spends I (fun
      | .ok true, m => ∀ channel, (perform (q.record dep .rateLimited channel)).Spends I F m
      | .ok false, m => P m
      | .error e, m => F (.error e) m) n)
    (hrecord : ∀ result channel m, result ≠ .dispatchQueued → P m →
      (perform (q.record dep result channel)).Spends I (fun r m' => r = .ok () ∧ F (.ok ()) m') m)
    (hsend : ∀ userId tenantId normalized m, P m →
      (perform (LinkQuery.send (q.payload userId tenantId normalized))).Spends I (fun
        | .ok _, m' => (perform (q.record dep .dispatchQueued normalized.channel)).Spends I
            (fun r m'' => r = .ok () ∧ F (.ok ()) m'') m'
        | .error _, m' => P m') m) :
    (q.request dep).Spends I F n := by
  have hend : ∀ result channel m, result ≠ .dispatchQueued → P m →
      (perform (q.record dep result channel)).Spends I F m := fun result channel m hresult hm =>
    (hrecord result channel m hresult hm).mono fun r _ hr => hr.1 ▸ hr.2
  unfold LinkCall.request
  refine Prog.Spends.bind <| hlimit.mono fun r m hm => ?_
  cases r with
  | error e => exact hm
  | ok limited =>
    cases limited with
    | true => exact hm _
    | false =>
      dsimp only
      rw [if_neg (by simp)]
      split
      · exact hend _ _ _ nofun hm
      · rename_i normalized _
        refine Prog.Spends.tryCatch <| (lookup_spends
          (G := fun r m' => (r = .ok () ∧ F (.ok ()) m') ∨ (∃ e, r = .error e) ∧ P m')
          (fun e m hm => .inr ⟨⟨e, rfl⟩, hm⟩)
          (fun result channel m hresult hm => (hrecord result channel m hresult hm).mono
            fun _ _ => .inl)
          (fun userId tenantId normalized m hm => (hsend userId tenantId normalized m hm).mono
            fun r m' hr => ?_)
          normalized hm).mono fun r m' hr => ?_
        · cases r with
          | ok _ => exact hr.mono fun _ _ => .inl
          | error e => exact .inr ⟨⟨e, rfl⟩, hr⟩
        · rcases hr with ⟨rfl, hr⟩ | ⟨⟨e, rfl⟩, hr⟩
          · exact hr
          · exact hend _ _ _ nofun hr

end
end InvitationService.GuestMagicLink

import InvitationService.Lib.Hindsight
import InvitationService.MagicLink.Phases
import InvitationService.Recovery.MagicLink

namespace InvitationService.GuestMagicLink

open Resumption

/-! Where the links go, and what the log says of the requests, in view of the moments that the
service has passed through. -/

section

variable {dep : Deployment} {G G' : Set LinkWorld} {s t u : LinkWorld} {q : LinkCall}
  {p : LinkRequestDTO} {normalized : NormalizedIdentifier} {tenantId : TenantId}

def foundIn (lower : String → String) (identifier : NormalizedIdentifier) (tenantId : TenantId)
    (w : World) : List ContactMatch :=
  (w.db.invitations.select (contactCondition lower identifier)).filterMap fun i =>
    ((w.db.settings i.eventId).filter (·.tenantId = some tenantId)).map (contactMatch i)

structure Leads (dep : Deployment) (G : Set LinkWorld) (q : LinkCall) (p : LinkRequestDTO)
    (normalized : NormalizedIdentifier) (u v : LinkWorld) (c : ContactMatch) : Prop where
  identifier : q.normalized dep = some normalized
  tenant : linkTenantId dep q.context = some p.tenantId
  found : u ∈ G
  checked : v ∈ G
  later : u.world.now ≤ v.world.now
  picked : Picks dep.toConfig
    (eligible v.world.now (foundIn dep.lower normalized p.tenantId u.world)) (some q.name) c
  guest : c.guestProfileId = some p.userId
  payload : p = q.payload p.userId p.tenantId normalized

theorem post_findMatches {Q : Except Exception (List ContactMatch) → LinkWorld → Prop}
    (herr : Q (.error (.dependency .database)) s)
    (hok : Q (.ok (foundIn dep.lower normalized tenantId s.world)) s) :
    ((findMatches dep.lower normalized tenantId).zoom worldPart).Post Q s :=
  (Prog.post_zoom worldPart).2 (Block.post_call.2 ⟨herr, hok⟩)

inductive Outcome (dep : Deployment) (G : Set LinkWorld) (sent : List LinkRequestDTO)
    (q : LinkCall) :
    InternalResult → Option Channel → Prop
  | rateLimited {ip : String} {u : LinkWorld} {c : Counter} :
      q.client.ip = some ip → u ∈ G → u.counters (rateLimitKey ip) = some c →
      rateLimitMaxPerWindow < c.count →
      Outcome dep G sent q .rateLimited ((q.normalized dep).map (·.channel))
  | invalidIdentifier : q.normalized dep = none → Outcome dep G sent q .invalidIdentifier none
  | internalFailure {normalized : NormalizedIdentifier} : q.normalized dep = some normalized →
      Outcome dep G sent q .internalFailure normalized.channel
  | noMatch {normalized : NormalizedIdentifier} {tenantId : TenantId} {u : LinkWorld} :
      q.normalized dep = some normalized → linkTenantId dep q.context = some tenantId → u ∈ G →
      foundIn dep.lower normalized tenantId u.world = [] →
      Outcome dep G sent q .noMatch normalized.channel
  | ineligible {normalized : NormalizedIdentifier} {tenantId : TenantId} {u v w : LinkWorld} :
      q.normalized dep = some normalized → linkTenantId dep q.context = some tenantId → u ∈ G →
      v ∈ G → w ∈ G → u.world.now ≤ v.world.now → v.world.now ≤ w.world.now →
      foundIn dep.lower normalized tenantId u.world ≠ [] →
      eligible v.world.now (foundIn dep.lower normalized tenantId u.world) = [] →
      Outcome dep G sent q
        (ineligibleReason w.world.now (foundIn dep.lower normalized tenantId u.world))
        normalized.channel
  | ambiguous {normalized : NormalizedIdentifier} {tenantId : TenantId} {u v : LinkWorld} :
      q.normalized dep = some normalized → linkTenantId dep q.context = some tenantId → u ∈ G →
      v ∈ G → u.world.now ≤ v.world.now →
      (∀ c, ¬ Picks dep.toConfig
        (eligible v.world.now (foundIn dep.lower normalized tenantId u.world)) (some q.name) c) →
      eligible v.world.now (foundIn dep.lower normalized tenantId u.world) ≠ [] →
      Outcome dep G sent q .ambiguous normalized.channel
  | dispatchQueued {normalized : NormalizedIdentifier} {p : LinkRequestDTO} :
      q.normalized dep = some normalized → p ∈ sent → p = q.payload p.userId p.tenantId normalized →
      Outcome dep G sent q .dispatchQueued normalized.channel

theorem Outcome.mono {sent sent' : List LinkRequestDTO} {result : InternalResult}
    {channel : Option Channel} (h : Outcome dep G sent q result channel) (hG : G ⊆ G')
    (hsent : sent ⊆ sent') : Outcome dep G' sent' q result channel := by
  cases h with
  | rateLimited hip hu hc hcount => exact .rateLimited hip (hG hu) hc hcount
  | invalidIdentifier hq => exact .invalidIdentifier hq
  | internalFailure hq => exact .internalFailure hq
  | noMatch hq ht hu hnone => exact .noMatch hq ht (hG hu) hnone
  | ineligible hq ht hu hv hw huv hvw hsome hnone =>
    exact .ineligible hq ht (hG hu) (hG hv) (hG hw) huv hvw hsome hnone
  | ambiguous hq ht hu hv huv hnone hsome => exact .ambiguous hq ht (hG hu) (hG hv) huv hnone hsome
  | dispatchQueued hq hp hpayload => exact .dispatchQueued hq (hsent hp) hpayload

structure Later (s t : LinkWorld) : Prop where
  now : s.world.now ≤ t.world.now
  calls : s.calls ⊆ t.calls
  sent : s.sent ⊆ t.sent

theorem Later.trans (h : Later s t) (h' : Later t u) : Later s u :=
  ⟨h.now.trans h'.now, List.Subset.trans h.calls h'.calls, List.Subset.trans h.sent h'.sent⟩

def Truthful (dep : Deployment) (G : Set LinkWorld) (s : LinkWorld) (l : LogLine) : Prop :=
  ∃ q ∈ s.calls, l.correlationId = q.correlationId ∧ l.identifierFingerprint = q.fingerprint dep ∧
    Outcome dep G s.sent q l.result l.channel

/-- The links and the lines of the log are what the past makes them. -/
structure Recorded (dep : Deployment) (G : Set LinkWorld) (s : LinkWorld) : Prop where
  later : ∀ u ∈ G, Later u s
  links : ∀ p ∈ s.sent, ∃ q ∈ s.calls, ∃ normalized u v c, Leads dep G q p normalized u v c
  lines : ∀ l ∈ s.lines, Truthful dep G s l

theorem Recorded.moment (h : Recorded dep G s) (hst : Later s t)
    (hlinks : ∀ p ∈ t.sent, p ∈ s.sent ∨ ∃ q ∈ t.calls, ∃ normalized u v c,
      Leads dep (insert t G) q p normalized u v c)
    (hlines : ∀ l ∈ t.lines, l ∈ s.lines ∨ Truthful dep (insert t G) t l) :
    Recorded dep (insert t G) t := by
  have hG : G ⊆ insert t G := Set.subset_insert t G
  refine ⟨?_, fun p hp => ?_, fun l hl => ?_⟩
  · rintro u (rfl | hu)
    · exact ⟨Nat.le_refl _, List.Subset.refl _, List.Subset.refl _⟩
    · exact (h.later u hu).trans hst
  · refine (hlinks p hp).elim (fun hs => ?_) id
    obtain ⟨q, hq, normalized, u, v, c, hc⟩ := h.links p hs
    exact ⟨q, hst.calls hq, normalized, u, v, c, hc.identifier, hc.tenant, hG hc.found,
      hG hc.checked, hc.later, hc.picked, hc.guest, hc.payload⟩
  · refine (hlines l hl).elim (fun hs => ?_) id
    obtain ⟨q, hq, hid, hprint, ho⟩ := h.lines l hs
    exact ⟨q, hst.calls hq, hid, hprint, ho.mono hG hst.sent⟩

theorem Recorded.quiet (h : Recorded dep G s) (hnow : s.world.now ≤ t.world.now)
    (hcalls : s.calls ⊆ t.calls) (hsent : t.sent = s.sent) (hlines : t.lines = s.lines) :
    Recorded dep (insert t G) t :=
  h.moment ⟨hnow, hcalls, hsent ▸ List.Subset.refl _⟩ (fun _ hp => .inl (hsent ▸ hp))
    fun _ hl => .inl (hlines ▸ hl)

theorem Recorded.send (h : Recorded dep G s) (hq : q ∈ s.calls) {v : LinkWorld} {c : ContactMatch}
    (hp : Leads dep G q p normalized u v c) :
    Recorded dep (insert { s with sent := p :: s.sent } G) { s with sent := p :: s.sent } := by
  refine h.moment ⟨Nat.le_refl _, List.Subset.refl _, List.subset_cons_self _ _⟩ (fun p' hp' => ?_)
    fun _ => .inl
  rcases List.mem_cons.1 hp' with rfl | hp'
  · exact .inr ⟨q, hq, normalized, u, v, c, hp.identifier, hp.tenant, .inr hp.found,
      .inr hp.checked,
      hp.later, hp.picked, hp.guest, hp.payload⟩
  · exact .inl hp'

theorem Recorded.record (h : Recorded dep G s) (hq : q ∈ s.calls) {result : InternalResult}
    {channel : Option Channel} (ho : Outcome dep G s.sent q result channel) (m : Metrics) :
    Recorded dep (insert { s with
      metrics := m
      lines := ⟨result, q.correlationId, q.fingerprint dep, channel⟩ :: s.lines } G) { s with
      metrics := m
      lines := ⟨result, q.correlationId, q.fingerprint dep, channel⟩ :: s.lines } := by
  refine h.moment ⟨Nat.le_refl _, List.Subset.refl _, List.Subset.refl _⟩ (fun _ => .inl)
    fun l hl => ?_
  rcases List.mem_cons.1 hl with rfl | hl
  · exact .inr ⟨q, hq, rfl, rfl, ho.mono (Set.subset_insert _ _) (List.Subset.refl _)⟩
  · exact .inl hl

def Asked (q : LinkCall) (G : Set LinkWorld) : Prop := ∃ u ∈ G, q ∈ u.calls

theorem Asked.mono (h : Asked q G) (hG : G ⊆ G') : Asked q G' := h.imp fun _ hu => ⟨hG hu.1, hu.2⟩

theorem Recorded.asked (h : Recorded dep G s) (hq : Asked q G) : q ∈ s.calls := by
  obtain ⟨u, hu, hqu⟩ := hq
  exact (h.later u hu).calls hqu

theorem Recorded.rest (h : Recorded dep G s) (hs : s ∈ G) : Recorded dep (insert s G) s := by
  rwa [Set.insert_eq_of_mem hs]

theorem record_recalls {result : InternalResult} {channel : Option Channel}
    (ho : ∃ u ∈ G, q ∈ u.calls ∧ Outcome dep G u.sent q result channel) :
    (perform (q.record dep result channel)).Recalls (Recorded dep) (fun _ H => Asked q H) G := by
  obtain ⟨u, hu, hq, ho⟩ := ho
  refine recalls_perform fun s H hH _ hJ => Block.post_record.2 ⟨?_, u, .inr (hH hu), hq⟩
  exact hJ.record ((hJ.later u (hH hu)).calls hq) (ho.mono hH (hJ.later u (hH hu)).sent) _

theorem isRateLimited_recalls (hq : Asked q G) :
    (isRateLimited dep q.client.ip).Recalls (Recorded dep) (fun r H => Asked q H ∧
      (r = .ok true → ∀ sent, Outcome dep H sent q .rateLimited
        ((q.normalized dep).map (·.channel)))) G := by
  unfold isRateLimited
  split
  · exact ⟨hq, nofun⟩
  · rename_i ip hip
    have hclient : q.client.ip = some ip := (Option.filter_eq_some_iff.1 hip).1
    refine Prog.Recalls.bind <| recalls_perform fun s H hH hs hJ => post_incr
      ⟨hJ.rest hs, (hq.mono hH).mono (Set.subset_insert _ _), nofun⟩
      ⟨hJ.quiet (Nat.le_refl _) (List.Subset.refl _) rfl rfl, ?_⟩
    have hasked := (hq.mono hH).mono (Set.subset_insert { s with
      counters := Function.update s.counters (rateLimitKey ip)
        (some (nextCounter s (rateLimitKey ip))) } H)
    dsimp only
    split
    · rename_i hone
      refine Prog.Recalls.bind <| recalls_perform fun s' H' hH' hs' hJ' => Block.post_call.2
        ⟨⟨hJ'.rest hs', (hasked.mono hH').mono (Set.subset_insert _ _), nofun⟩,
          hJ'.quiet (Nat.le_refl _) (List.Subset.refl _) rfl rfl,
          (hasked.mono hH').mono (Set.subset_insert _ _), fun h => ?_⟩
      rw [hone] at h
      exact absurd h (by decide)
    · refine ⟨hasked, fun h sent => ?_⟩
      exact .rateLimited hclient (Set.mem_insert _ _) (Function.update_self ..)
        (by simpa using h)

theorem dispatch_recalls {v : LinkWorld} (hq : Asked q G) (hid : q.normalized dep = some normalized)
    (htenant : linkTenantId dep q.context = some tenantId) (hu : u ∈ G) (hv : v ∈ G)
    (huv : u.world.now ≤ v.world.now)
    (hsome : eligible v.world.now (foundIn dep.lower normalized tenantId u.world) ≠ []) :
    (q.dispatch dep tenantId normalized
      (eligible v.world.now (foundIn dep.lower normalized tenantId u.world))).Recalls
      (Recorded dep) (fun _ H => Asked q H) G := by
  unfold LinkCall.dispatch
  split
  · rename_i hnone
    obtain ⟨u', hu', hqu⟩ := hq
    refine record_recalls ⟨u', hu', hqu, .ambiguous hid htenant hu hv huv (fun c hc => ?_) hsome⟩
    have hpick := resolveEligibleMatch_eq_some.2 hc
    obtain ⟨-, -, guest, hguest⟩ := resolveEligibleMatch_eligible hpick
    rw [hpick, Option.bind_some, hguest] at hnone
    cases hnone
  · rename_i userId hsome
    obtain ⟨c, hc, hguest⟩ := Option.bind_eq_some_iff.1 hsome
    refine Prog.Recalls.bind <| recalls_perform fun s H hH hs hJ => Block.post_call.2
      ⟨⟨hJ.rest hs, (hq.mono hH).mono (Set.subset_insert _ _)⟩, ?_⟩
    have hleads : Leads dep H q (q.payload userId tenantId normalized) normalized u v c :=
      ⟨hid, htenant, hH hu, hH hv, huv, resolveEligibleMatch_eq_some.1 hc, hguest, rfl⟩
    have hcalls := hJ.asked (hq.mono hH)
    exact ⟨hJ.send hcalls hleads, record_recalls ⟨_, Set.mem_insert _ _, hcalls,
      .dispatchQueued hid (List.mem_cons_self ..) rfl⟩⟩

theorem lookup_recalls (hq : Asked q G) (hid : q.normalized dep = some normalized) :
    (q.lookup dep normalized).Recalls (Recorded dep) (fun _ H => Asked q H) G := by
  unfold LinkCall.lookup
  split
  · obtain ⟨u, hu, hqu⟩ := hq
    exact record_recalls ⟨u, hu, hqu, .internalFailure hid⟩
  · rename_i tenantId htenant
    refine recalls_look (findMatches_looks _ _) fun u H hH hu _ =>
      post_findMatches (hq.mono hH) ?_
    replace hq := hq.mono hH
    dsimp only
    split
    · rename_i hnone
      obtain ⟨w, hw, hqw⟩ := hq
      exact record_recalls ⟨w, hw, hqw, .noMatch hid htenant hu (List.isEmpty_iff.1 hnone)⟩
    · rename_i hsome
      refine recalls_look clock_looks fun v H hH hv hJ => Block.post_observe.2 ?_
      replace hq := hq.mono hH
      have huv := (hJ.later u (hH hu)).now
      dsimp only
      split
      · rename_i hnone
        refine recalls_look clock_looks fun w H' hH' hw hJ' => Block.post_observe.2 ?_
        obtain ⟨z, hz, hqz⟩ := hq.mono hH'
        exact record_recalls ⟨z, hz, hqz, .ineligible hid htenant (hH' (hH hu)) (hH' hv) hw huv
          (hJ'.later v (hH' hv)).now (by simpa using hsome) (List.isEmpty_iff.1 hnone)⟩
      · rename_i heligible
        exact dispatch_recalls hq hid htenant (hH hu) hv huv (by simpa using heligible)

theorem request_recalls (hq : Asked q G) :
    (q.request dep).Recalls (Recorded dep) (fun _ _ => True) G := by
  unfold LinkCall.request
  refine Prog.Recalls.bind <| (isRateLimited_recalls hq).weaken fun r H _ hr => ?_
  cases r with
  | error e => trivial
  | ok limited =>
    dsimp only
    split
    · rename_i htrue
      obtain ⟨u, hu, hqu⟩ := hr.1
      exact (record_recalls ⟨u, hu, hqu, hr.2 (by rw [htrue]) _⟩).weaken fun _ _ _ _ => trivial
    · split
      · rename_i hnone
        obtain ⟨u, hu, hqu⟩ := hr.1
        exact (record_recalls ⟨u, hu, hqu, .invalidIdentifier hnone⟩).weaken fun _ _ _ _ => trivial
      · rename_i normalized hid
        refine Prog.Recalls.tryCatch <| (lookup_recalls hr.1 hid).weaken fun r H' _ hr' => ?_
        cases r with
        | ok _ => trivial
        | error e =>
          obtain ⟨u, hu, hqu⟩ := hr'
          exact (record_recalls ⟨u, hu, hqu, .internalFailure hid⟩).weaken fun _ _ _ _ => trivial

end

section

variable {dep : Deployment} {s₀ s : LinkWorld} {p : LinkRequestDTO}
  {ts : List (System.Thread (Nat → Bool) LinkWorld Exception (Request ⊕ LinkCall))}

theorem recovery_recorded (hs : (recovery dep).Interleaved s₀ ts s) (hsent : s₀.sent = [])
    (hlines : s₀.lines = []) : ∃ G ⊆ (recovery dep).history s₀ ts s, Recorded dep G s := by
  have h₀ : Recorded dep {s₀} s₀ := by
    refine ⟨?_, by simp [hsent], by simp [hlines]⟩
    rintro u rfl
    exact ⟨Nat.le_refl _, List.Subset.refl _, List.Subset.refl _⟩
  have henv : ∀ G s t, s ∈ G → Recorded dep G s → (recovery dep).env s t →
      Recorded dep (insert t G) t := by
    rintro G s t - hJ (⟨w, hw, rfl⟩ | he)
    · exact hJ.quiet (Onward.of_environment hw).now (List.Subset.refl _) rfl rfl
    · cases he
      exact hJ.quiet (Nat.le_refl _) (List.Subset.refl _) rfl rfl
  have harrive : ∀ G c s, s ∈ G → Recorded dep G s → (recovery dep).enabled c s →
      Recorded dep (insert ((recovery dep).arrive c s) G) ((recovery dep).arrive c s) := by
    intro G c s _ hJ _
    cases c with
    | inl c => exact hJ.quiet (Nat.le_refl _) (List.Subset.refl _) rfl rfl
    | inr q => exact hJ.quiet (Nat.le_refl _) (List.subset_cons_self _ _) rfl rfl
  obtain ⟨G, hG, -, hJ, -⟩ := hs.recalled (C := fun c => c.isRight) h₀ henv harrive
    (fun c s hc => by
      cases c with
      | inl c => cases hc
      | inr q => exact request_recalls ⟨_, rfl, List.mem_cons_self ..⟩)
    fun us vs c a s β f k i G hc hs _ hJ => by
      cases c with
      | inl c =>
        obtain ⟨w, hw, hnow⟩ := service_step hs i
        rw [hw]
        exact hJ.quiet hnow (List.Subset.refl _) rfl rfl
      | inr q => exact absurd rfl hc
  exact ⟨G, hG, hJ⟩

/-- A link is requested for nobody but a guest who is approved and has a profile, to the contact
that the invitation holds, in the tenant of the event, before the event has ended: of those who
share the contact, the one that the ladder picks. -/
theorem links_reach_guests (hs : (recovery dep).Interleaved s₀ ts s) (hsent : s₀.sent = [])
    (hlines : s₀.lines = []) (hp : p ∈ s.sent) :
    ∃ q ∈ s.calls, ∃ normalized, q.normalized dep = some normalized ∧
      linkTenantId dep q.context = some p.tenantId ∧
      p = q.payload p.userId p.tenantId normalized ∧
      ∃ u v, (recovery dep).Passed s₀ u ts s ∧ (recovery dep).Passed s₀ v ts s ∧
        u.world.now ≤ v.world.now ∧
      ∃ r esp, u.world.row r.id = some r ∧ contactCondition dep.lower normalized r = true ∧
        u.world.db.settings r.eventId = some esp ∧ esp.tenantId = some p.tenantId ∧
        (r.status = .approved ∨ r.status = .accepted) ∧ r.guestProfileId = some p.userId ∧
        (∃ ends, (r.eventEndsAt <|> esp.endsAt) = some ends ∧ v.world.now < ends) ∧
        Picks dep.toConfig
          (eligible v.world.now (foundIn dep.lower normalized p.tenantId u.world)) (some q.name)
          (contactMatch r esp) := by
  obtain ⟨G, hG, hJ⟩ := recovery_recorded hs hsent hlines
  obtain ⟨q, hq, normalized, u, v, c, hc⟩ := hJ.links p hp
  refine ⟨q, hq, normalized, hc.identifier, hc.tenant, hc.payload, u, v, hG hc.found,
    hG hc.checked, hc.later, ?_⟩
  obtain ⟨hstatus, hends, -⟩ := resolveEligibleMatch_eligible
    (resolveEligibleMatch_eq_some.2 hc.picked)
  have hmem := (List.mem_filter.1 hc.picked.mem).1
  simp only [foundIn, List.mem_filterMap, InvitationTable.mem_select, Option.map_eq_some_iff,
    Option.filter_eq_some_iff, decide_eq_true_eq] at hmem
  obtain ⟨r, ⟨hrow, hcond⟩, esp, ⟨hesp, htenant⟩, rfl⟩ := hmem
  refine ⟨r, esp, hrow, hcond, hesp, htenant, hstatus, hc.guest, ?_, hc.picked⟩
  obtain ⟨ends, hmap, hlt⟩ := hends
  obtain ⟨n, hn, rfl⟩ := Option.map_eq_some_iff.1 hmap
  exact ⟨n, hn, Int.ofNat_lt.1 hlt⟩

/-- Every line of the log is that of a request, and true of it at moments that the service has
passed through. -/
theorem lines_tell_truth (hs : (recovery dep).Interleaved s₀ ts s) (hsent : s₀.sent = [])
    (hlines : s₀.lines = []) {l : LogLine} (hl : l ∈ s.lines) :
    ∃ q ∈ s.calls, l.correlationId = q.correlationId ∧ l.identifierFingerprint = q.fingerprint dep ∧
      Outcome dep {u | (recovery dep).Passed s₀ u ts s} s.sent q l.result l.channel := by
  obtain ⟨G, hG, hJ⟩ := recovery_recorded hs hsent hlines
  obtain ⟨q, hq, hid, hprint, ho⟩ := hJ.lines l hl
  exact ⟨q, hq, hid, hprint, ho.mono hG (List.Subset.refl _)⟩

def guestLink : LinkRequestDTO :=
  guestCall.payload 77 1 ⟨.email, "a@b.de"⟩

theorem links_reach_guests_once : guestLink ∈ (requested 1).sent ∧
    ∃ q ∈ (requested 1).calls, ∃ normalized, q.normalized plainDeployment = some normalized ∧
      linkTenantId plainDeployment q.context = some guestLink.tenantId ∧
      guestLink = q.payload guestLink.userId guestLink.tenantId normalized := by
  obtain ⟨ts, hts, -⟩ := requested_run 1
  have hp : guestLink ∈ (requested 1).sent := by decide +kernel
  obtain ⟨q, hq, normalized, hid, htenant, hpayload, -⟩ := links_reach_guests hts rfl rfl hp
  exact ⟨hp, q, hq, normalized, hid, htenant, hpayload⟩

theorem lines_tell_truth_once : ∃ l ∈ (requested 1).lines, l.result = .dispatchQueued ∧
    ∃ q ∈ (requested 1).calls, ∃ G, Outcome plainDeployment G (requested 1).sent q l.result
      l.channel := by
  obtain ⟨ts, hts, -⟩ := requested_run 1
  obtain ⟨l, hl, hresult⟩ : ∃ l ∈ (requested 1).lines, l.result = .dispatchQueued :=
    by decide +kernel
  obtain ⟨q, hq, -, -, ho⟩ := lines_tell_truth hts rfl rfl hl
  exact ⟨l, hl, hresult, q, hq, _, ho⟩

end
end InvitationService.GuestMagicLink

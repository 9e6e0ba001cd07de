import InvitationService.Lib.LatestWins
import InvitationService.Lifecycle.Reliable

open Relation (ReflTransGen)

namespace InvitationService

open Resumption Query LatestWins

variable {cfg : Config} {s t w : World} {e : EventId} {u : UserId}

/-- The access message about `u` in `e` that the call has handled. -/
def handledAccess (e : EventId) (u : UserId) (x : CallRecord) : Option EventAccessDTO :=
  match x.call.call, x.outcome with
  | .userAccessChanged payload, .ok _ =>
    if payload.eventId = e ∧ payload.userId = u then some payload else none
  | _, _ => none

/-- The access messages about `u` in `e` that were handled, oldest first. -/
def accessMessages (e : EventId) (u : UserId) (h : List CallRecord) : List EventAccessDTO :=
  h.filterMap (handledAccess e u)

structure EventAccess.Says (r : EventAccess) (payload : EventAccessDTO) : Prop where
  permissions : r.permissions = payload.permissions
  roles : r.roles = payload.roles
  occurredAt : r.occurredAt = some payload.occurredAt

def AccessInv (e : EventId) (u : UserId) (h : List CallRecord) (w : World) : Prop :=
  ∃ o, IsLatest (·.occurredAt) (accessMessages e u h) o ∧
    Option.Rel EventAccess.Says (w.db.access e u) o

namespace EventRoleHandler

theorem handleUserAccessChanged_guarantees {payload : EventAccessDTO} :
    (handleUserAccessChanged payload).Guarantees (fun s t => t.db = s.db) (fun _ _ => True)
      (fun r v => match r with
        | .error _ => v.db = s.db
        | .ok _ =>
          if isStale payload.occurredAt
            ((s.db.access payload.eventId payload.userId).bind (·.occurredAt)) then v.db = s.db
          else ∃ now, v.db = { s.db with
            access := putEntry s.db.access payload.eventId payload.userId
              (some ⟨payload.permissions, payload.roles, some payload.occurredAt, now⟩) }) s := by
  unfold handleUserAccessChanged
  simp only [liftM_eq]
  refine Prog.Guarantees.bind (guarantees_perform fun t ht => ?_)
  refine Block.post_call.2 ⟨⟨trivial, ht⟩, trivial, ?_⟩
  rw [ht]
  dsimp only
  split
  · exact ht
  · exact guarantees_perform fun u hu => Block.post_call.2
      ⟨⟨trivial, hu.trans ht⟩, trivial, some u.now, by simp only [hu, ht]⟩

end EventRoleHandler

variable {h : List CallRecord} {x : CallRecord}

theorem accessMessages_concat :
    accessMessages e u (h ++ [x]) = accessMessages e u h ++ (handledAccess e u x).toList := by
  cases hx : handledAccess e u x <;> simp [accessMessages, hx]

theorem handledAccess_eq_some {payload : EventAccessDTO} :
    handledAccess e u x = some payload ↔ x.call.call = .userAccessChanged payload ∧
      x.outcome = .ok () ∧ payload.eventId = e ∧ payload.userId = u := by
  unfold handledAccess
  split
  · rename_i p _ hc ho
    rw [hc, ho]
    constructor
    · intro h
      split at h
      · rename_i heu
        cases h
        exact ⟨rfl, rfl, heu⟩
      · cases h
    · rintro ⟨hp, -, heu⟩
      cases hp
      rw [if_pos heu]
  · rename_i hne
    exact ⟨nofun, fun h => absurd h.2.1 (hne _ _ h.1)⟩

theorem mem_accessMessages {payload : EventAccessDTO} :
    payload ∈ accessMessages e u h ↔ ∃ x ∈ h, x.call.call = .userAccessChanged payload ∧
      x.outcome = .ok () ∧ payload.eventId = e ∧ payload.userId = u := by
  simp only [accessMessages, List.mem_filterMap, handledAccess_eq_some]

theorem AccessInv.of_access_eq (hw : AccessInv e u h s) (hx : handledAccess e u x = none)
    (ht : t.db.access e u = s.db.access e u) : AccessInv e u (h ++ [x]) t := by
  rwa [AccessInv, accessMessages_concat, hx, Option.toList_none, List.append_nil, ht]

theorem AccessInv.deliver {payload : EventAccessDTO}
    (hw : AccessInv payload.eventId payload.userId h s)
    (hx : handledAccess payload.eventId payload.userId x = some payload)
    (ht : if EventRoleHandler.isStale payload.occurredAt
        ((s.db.access payload.eventId payload.userId).bind (·.occurredAt)) then t.db = s.db
      else ∃ now, t.db = { s.db with
        access := putEntry s.db.access payload.eventId payload.userId
          (some ⟨payload.permissions, payload.roles, some payload.occurredAt, now⟩) }) :
    AccessInv payload.eventId payload.userId (h ++ [x]) t := by
  obtain ⟨o, ho, hrel⟩ := hw
  rw [AccessInv, accessMessages_concat, hx, Option.toList_some]
  split at ht
  · rename_i hstale
    rw [ht]
    cases hr : s.db.access payload.eventId payload.userId with
    | none => simp [hr, EventRoleHandler.isStale] at hstale
    | some r =>
      rw [hr] at hrel hstale
      cases hrel with
      | some hstored =>
        refine ⟨_, ho.skip ?_, .some hstored⟩
        simpa [EventRoleHandler.isStale, hstored.occurredAt] using hstale
  · rename_i hfresh
    obtain ⟨now, ht⟩ := ht
    refine ⟨some payload, ho.replace fun p hp => ?_, ?_⟩
    · subst hp
      cases hr : s.db.access payload.eventId payload.userId with
      | none => rw [hr] at hrel; cases hrel
      | some r =>
        rw [hr] at hrel hfresh
        cases hrel with
        | some hstored => simpa [EventRoleHandler.isStale, hstored.occurredAt] using hfresh
    · simp only [ht, putEntry_self]
      exact .some ⟨rfl, rfl, rfl⟩

theorem AccessInv.call {q : Request} {r : Except Exception Unit} (hw : AccessInv e u h s)
    (hex : Prog.Exec (ReflTransGen (service cfg).env) ((service cfg).exec q)
      ((service cfg).arrive q s) r t)
    (hdel : ∀ es, q.call = .eventDeleted es → e ∉ es) : AccessInv e u (h ++ [⟨s, q, r⟩]) t := by
  by_cases hq : q.call.WritesAccess e u
  · obtain ⟨c, ctx⟩ := q
    cases c with
    | userAccessChanged payload =>
      obtain ⟨rfl, rfl⟩ := hq
      have hend := hex.ends EventRoleHandler.handleUserAccessChanged_guarantees
        fun _ _ => environments_db
      cases r with
      | error err => exact hw.of_access_eq rfl (by rw [hend]; rfl)
      | ok _ => exact hw.deliver (handledAccess_eq_some.2 ⟨rfl, rfl, rfl, rfl⟩) hend
    | eventDeleted es => exact absurd hq (hdel es rfl)
    | _ => exact hq.elim
  · refine hw.of_access_eq ?_ (exec_access_eq hex hq)
    refine Option.eq_none_iff_forall_ne_some.2 fun payload hp => hq ?_
    obtain ⟨hc, -, he, hu⟩ := handledAccess_eq_some.1 hp
    have hc : q.call = .userAccessChanged payload := hc
    rw [hc]
    exact ⟨he, hu⟩

/-- In every run in which the event is not deleted, the projection says what the latest of
the handled messages says. -/
theorem AccessInv.run (hs : (service cfg).Serial s h w) (h₀ : s.db.access e u = none)
    (hdel : ∀ x ∈ h, ∀ es, x.call.call = .eventDeleted es → e ∉ es) : AccessInv e u h w := by
  induction hs with
  | start => exact ⟨none, rfl, by rw [h₀]; exact .none⟩
  | env _ he ih =>
    have := ih hdel
    rwa [AccessInv, environment_db he]
  | call _ _ hex ih =>
    exact (ih fun x hx => hdel x (List.mem_append_left _ hx)).call hex
      (hdel _ (List.mem_append_right _ (List.mem_singleton_self _)))

theorem AccessInv.isSome_iff (hw : AccessInv e u h w) :
    (w.db.access e u).isSome ↔ ∃ payload, payload ∈ accessMessages e u h := by
  obtain ⟨o, ho, hrel⟩ := hw
  generalize w.db.access e u = row at hrel
  cases hrel with
  | none => simp [show accessMessages e u h = [] from ho]
  | some _ => exact ⟨fun _ => ⟨_, ho.1⟩, fun _ => rfl⟩

theorem AccessInv.says_latest (hw : AccessInv e u h w)
    (hinj : ∀ p ∈ accessMessages e u h, ∀ q ∈ accessMessages e u h, p.occurredAt = q.occurredAt →
      p = q) {r : EventAccess} (hr : w.db.access e u = some r) :
    ∃ p ∈ accessMessages e u h, r.Says p ∧
      ∀ q ∈ accessMessages e u h, q ≠ p → q.occurredAt < p.occurredAt := by
  obtain ⟨o, ho, hrel⟩ := hw
  rw [hr] at hrel
  cases hrel with
  | @some _ p hstored =>
    refine ⟨p, ho.1, hstored, fun q hq hne => lt_of_le_of_ne (ho.2 q hq) fun heq => hne ?_⟩
    exact hinj q hq p ho.1 heq

theorem AccessInv.says_of_latest (hw : AccessInv e u h w) {payload : EventAccessDTO}
    (hp : payload ∈ accessMessages e u h)
    (hlatest : ∀ m ∈ accessMessages e u h, m ≠ payload → m.occurredAt < payload.occurredAt) :
    ∃ r, w.db.access e u = some r ∧ r.Says payload := by
  obtain ⟨r, hr⟩ := Option.isSome_iff_exists.1 (hw.isSome_iff.2 ⟨payload, hp⟩)
  obtain ⟨o, ho, hrel⟩ := hw
  rw [hr] at hrel ⊢
  cases hrel with
  | @some _ m hstored =>
    by_cases hm : m = payload
    · exact ⟨r, rfl, hm ▸ hstored⟩
    · exact absurd (ho.2 payload hp) (not_le.2 (hlatest m ho.1 hm))

/-- The content of a row; its `updatedAt` is the time of the write. -/
def EventAccess.content (r : EventAccess) : List String × String × Option Nat :=
  (r.permissions, r.roles, r.occurredAt)

theorem AccessInv.content_eq {h' : List CallRecord} {w' : World} (hw : AccessInv e u h w)
    (hw' : AccessInv e u h' w')
    (hinj : ∀ p ∈ accessMessages e u h, ∀ q ∈ accessMessages e u h, p.occurredAt = q.occurredAt →
      p = q) (hsame : ∀ p, p ∈ accessMessages e u h ↔ p ∈ accessMessages e u h') :
    (w.db.access e u).map EventAccess.content = (w'.db.access e u).map EventAccess.content := by
  obtain ⟨o, ho, hrel⟩ := hw
  obtain ⟨o', ho', hrel'⟩ := hw'
  obtain rfl := ho.unique ho' hsame hinj
  generalize w.db.access e u = row at hrel
  generalize w'.db.access e u = row' at hrel'
  cases hrel with
  | none => cases hrel'; rfl
  | some hstored =>
    cases hrel' with
    | some hstored' =>
      simp only [Option.map_some, EventAccess.content, hstored.permissions, hstored.roles,
        hstored.occurredAt, hstored'.permissions, hstored'.roles, hstored'.occurredAt]

theorem dependable_access {q : Request} {p : EventAccessDTO}
    (hq : q.call = .userAccessChanged p) : Dependable cfg q := by
  obtain ⟨c, ctx⟩ := q
  obtain rfl : c = _ := hq
  exact Succeeds.dependable EventRoleHandler.handleUserAccessChanged_succeeds

theorem mem_accessMessages_of_reliable (hs : (reliable cfg).Serial s h w) {p : EventAccessDTO} :
    p ∈ accessMessages e u h ↔
      ∃ x ∈ h, x.call.call = .userAccessChanged p ∧ p.eventId = e ∧ p.userId = u := by
  rw [mem_accessMessages]
  refine exists_congr fun x => and_congr_right fun hx => and_congr_right fun hp => ?_
  exact and_iff_right (outcome_of_dependable hs hx (dependable_access hp))

/-- However access messages are ordered and repeated, each event and user that occur have one
row, which is that of the latest message about them; and a message is handled unless a
dependency fails. -/
theorem access_projection_converges (hs : (service cfg).Serial s h w)
    (h₀ : ∀ e u, s.db.access e u = none)
    (hdel : ∀ x ∈ h, ∀ es, x.call.call ≠ .eventDeleted es)
    (hdistinct : ∀ x ∈ h, ∀ y ∈ h, ∀ p q, x.call.call = .userAccessChanged p →
      y.call.call = .userAccessChanged q → p.eventId = q.eventId → p.userId = q.userId →
      p.occurredAt = q.occurredAt → p = q) :
    (∀ e u, ((w.db.access e u).isSome ↔ ∃ p, p ∈ accessMessages e u h) ∧
      ∀ r, w.db.access e u = some r → ∃ p ∈ accessMessages e u h, r.Says p ∧
        ∀ q ∈ accessMessages e u h, q ≠ p → q.occurredAt < p.occurredAt) ∧
    (∀ s' h' w', (service cfg).Serial s' h' w' → (∀ e u, s'.db.access e u = none) →
      (∀ x ∈ h', ∀ es, x.call.call ≠ .eventDeleted es) →
      (∀ e u p, p ∈ accessMessages e u h ↔ p ∈ accessMessages e u h') →
      ∀ e u, (w.db.access e u).map EventAccess.content =
        (w'.db.access e u).map EventAccess.content) ∧
    (∀ q p, q.call = .userAccessChanged p → Dependable cfg q) ∧
    ((reliable cfg).Serial s h w → ∀ e u p, p ∈ accessMessages e u h ↔
      ∃ x ∈ h, x.call.call = .userAccessChanged p ∧ p.eventId = e ∧ p.userId = u) := by
  have hinj : ∀ e u, ∀ p ∈ accessMessages e u h, ∀ q ∈ accessMessages e u h,
      p.occurredAt = q.occurredAt → p = q := by
    intro e u p hp q hq
    obtain ⟨x, hx, hxp, -, he, hu⟩ := mem_accessMessages.1 hp
    obtain ⟨y, hy, hyq, -, he', hu'⟩ := mem_accessMessages.1 hq
    exact hdistinct x hx y hy p q hxp hyq (he.trans he'.symm) (hu.trans hu'.symm)
  have hrun : ∀ e u, AccessInv e u h w := fun e u =>
    .run hs (h₀ e u) fun x hx es hc => absurd hc (hdel x hx es)
  refine ⟨fun e u => ⟨(hrun e u).isSome_iff, fun r hr => (hrun e u).says_latest (hinj e u) hr⟩,
    fun s' h' w' hs' h₀' hdel' hsame e u => ?_, fun q p => dependable_access,
    fun hrel e u p => mem_accessMessages_of_reliable hrel⟩
  have hrun' : AccessInv e u h' w' :=
    .run hs' (h₀' e u) fun x hx es hc => absurd hc (hdel' x hx es)
  exact (hrun e u).content_eq hrun' (hinj e u) (hsame e u)

def granted : EventAccessDTO := ⟨7, 5, ["plus_ones.manage"], "STAFF", 1⟩
def revoked : EventAccessDTO := ⟨7, 5, [], "", 2⟩

def revokedRun : List Request :=
  [⟨.userAccessChanged granted, {}⟩, ⟨.userAccessChanged revoked, {}⟩,
    ⟨.userAccessChanged granted, {}⟩]

theorem call_of_mem_revokedRun {p : EventAccessDTO}
    (hx : x ∈ (trace plainConfig revokedRun .empty).1) (hp : x.call.call = .userAccessChanged p) :
    p = granted ∨ p = revoked := by
  have hmem := call_of_mem_trace hx
  simp only [revokedRun, List.mem_cons, List.not_mem_nil, or_false] at hmem
  rcases hmem with h | h | h <;> rw [h] at hp <;> cases hp <;> simp

theorem access_projection_converges_revoked :
    let h := (trace plainConfig revokedRun .empty).1
    (∃ r, (trace plainConfig revokedRun .empty).2.db.access 7 5 = some r ∧
      ∃ p ∈ accessMessages 7 5 h, r.Says p ∧
        ∀ q ∈ accessMessages 7 5 h, q ≠ p → q.occurredAt < p.occurredAt) ∧
    granted ∈ accessMessages 7 5 h ∧ revoked ∈ accessMessages 7 5 h := by
  intro h
  have hrel : (reliable plainConfig).Serial .empty h (trace plainConfig revokedRun .empty).2 :=
    reliable_trace revokedRun .empty (by decide)
  have hdel : ∀ x ∈ h, ∀ es, x.call.call ≠ .eventDeleted es := by
    intro x hx es hc
    have hmem := call_of_mem_trace hx
    simp only [revokedRun, List.mem_cons, List.not_mem_nil, or_false] at hmem
    rcases hmem with h | h | h <;> rw [h] at hc <;> cases hc
  obtain ⟨hrows, -, -, hall⟩ := access_projection_converges hrel.of_always (fun _ _ => rfl) hdel
    fun x hx y hy p q hp hq _ _ ho => by
      rcases call_of_mem_revokedRun hx hp with rfl | rfl <;>
        rcases call_of_mem_revokedRun hy hq with rfl | rfl <;>
        first | rfl | exact absurd ho (by decide)
  have hgranted : granted ∈ accessMessages 7 5 h :=
    (hall hrel 7 5 granted).2 ⟨_, List.mem_cons_self, rfl, rfl, rfl⟩
  have hrevoked : revoked ∈ accessMessages 7 5 h :=
    (hall hrel 7 5 revoked).2 ⟨_, List.mem_cons_of_mem _ List.mem_cons_self, rfl, rfl, rfl⟩
  obtain ⟨r, hr⟩ := Option.isSome_iff_exists.1 ((hrows 7 5).1.2 ⟨revoked, hrevoked⟩)
  exact ⟨⟨r, hr, (hrows 7 5).2 r hr⟩, hgranted, hrevoked⟩

end InvitationService

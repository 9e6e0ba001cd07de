import InvitationService.Lib.LatestWins
import InvitationService.Lifecycle.Reliable

open Relation (ReflTransGen)

namespace InvitationService

open Resumption Query LatestWins

variable {cfg : Config} {s t w : World} {e : EventId} {u : UserId} {c : Call}

namespace Call

def IsRoleMessage (e : EventId) : Call → Prop
  | .roleAssigned payload => payload.eventId = e
  | .roleRemoved payload => payload.eventId = e
  | .ownerChanged payload => payload.eventId = e
  | _ => False

def occurredAt : Call → Nat
  | .roleAssigned payload => payload.occurredAt
  | .roleRemoved payload => payload.occurredAt
  | .ownerChanged payload => payload.occurredAt
  | _ => 0

/-- What a role message says of `u`: a role, or that there is none. -/
def roleFact (u : UserId) : Call → Option (Option EventRoleType)
  | .roleAssigned payload => if payload.userId = u then some (some payload.role) else none
  | .roleRemoved payload => if payload.userId = u then some none else none
  | .ownerChanged payload =>
    if payload.newOwnerId = u then some (some .admin)
    else if payload.oldOwnerId = some u then some none else none
  | _ => none

/-- The roles after a message, with no staleness check. -/
def applyRole (roles : UserId → Option EventRoleType) : Call → UserId → Option EventRoleType
  | .roleAssigned payload => Function.update roles payload.userId (some payload.role)
  | .roleRemoved payload => Function.update roles payload.userId none
  | .ownerChanged payload =>
    Function.update
      (match payload.oldOwnerId with
      | some old => Function.update roles old none
      | none => roles)
      payload.newOwnerId (some .admin)
  | _ => roles

/-- The messages applied in the order in which what they report happened. -/
def rolesInOrder (cs : List Call) : UserId → Option EventRoleType :=
  (cs.insertionSort (·.occurredAt ≤ ·.occurredAt)).foldl applyRole fun _ => none

theorem applyRole_eq (roles : UserId → Option EventRoleType) (c : Call) (u : UserId) :
    applyRole roles c u = (c.roleFact u).getD (roles u) := by
  cases c with
  | roleAssigned payload =>
    simp only [applyRole, roleFact, Function.update_apply, eq_comm (a := u)]
    split <;> rfl
  | roleRemoved payload =>
    simp only [applyRole, roleFact, Function.update_apply, eq_comm (a := u)]
    split <;> rfl
  | ownerChanged payload =>
    simp only [applyRole, roleFact, Function.update_apply, eq_comm (a := u)]
    split
    · rfl
    · cases payload.oldOwnerId with
      | none => rfl
      | some old =>
        simp only [Function.update_apply, Option.some.injEq, eq_comm (a := u)]
        split <;> rfl
  | _ => rfl

theorem foldl_applyRole (cs : List Call) (roles : UserId → Option EventRoleType) (u : UserId) :
    cs.foldl applyRole roles u = cs.foldl (fun r c => (c.roleFact u).getD r) (roles u) := by
  induction cs generalizing roles with
  | nil => rfl
  | cons c cs ih => rw [List.foldl_cons, List.foldl_cons, ih, applyRole_eq]

theorem rolesInOrder_eq {cs : List Call} {o : Option Call}
    (h : IsLatest occurredAt (cs.filter fun c => (c.roleFact u).isSome) o)
    (hnodup : (cs.map occurredAt).Nodup) : rolesInOrder cs u = (o.bind (roleFact u)).getD none := by
  rw [rolesInOrder, foldl_applyRole]
  exact h.foldl_insertionSort none (fun _ hx _ hy => List.inj_on_of_nodup_map hnodup hx hy)

theorem writesRole_iff (hc : c.IsRoleMessage e) : c.WritesRole e u ↔ (c.roleFact u).isSome := by
  cases c with
  | roleAssigned payload =>
    obtain rfl := hc
    by_cases hu : payload.userId = u <;> simp [WritesRole, roleFact, hu]
  | roleRemoved payload =>
    obtain rfl := hc
    by_cases hu : payload.userId = u <;> simp [WritesRole, roleFact, hu]
  | ownerChanged payload =>
    obtain rfl := hc
    by_cases hn : payload.newOwnerId = u
    · simp [WritesRole, roleFact, hn]
    · by_cases ho : payload.oldOwnerId = some u <;> simp [WritesRole, roleFact, hn, ho]
  | _ => exact hc.elim

end Call

/-- How a fact about a user, reported for `stamp` and handled from `now` on, changes his row:
not at all when the row was written later. -/
inductive Settles (stamp : Nat) (fact : Option EventRoleType) (now : Nat) (old : Option EventRole) :
    Option EventRole → Prop
  | stale : EventRoleHandler.isStale stamp (old.bind (·.updatedAt)) = true →
      Settles stamp fact now old old
  | removed : ¬ EventRoleHandler.isStale stamp (old.bind (·.updatedAt)) = true → fact = none →
      Settles stamp fact now old none
  | assigned {role : EventRoleType} {n : Nat} :
      ¬ EventRoleHandler.isStale stamp (old.bind (·.updatedAt)) = true → fact = some role →
      now ≤ n → Settles stamp fact now old (some ⟨role, some n⟩)

theorem Settles.eq_of_stale {stamp now : Nat} {fact : Option EventRoleType}
    {old new : Option EventRole} (h : Settles stamp fact now old new)
    (hs : EventRoleHandler.isStale stamp (old.bind (·.updatedAt)) = true) : new = old := by
  cases h with
  | stale _ => rfl
  | removed h _ => exact absurd hs h
  | assigned h _ _ => exact absurd hs h

theorem Settles.of_fresh {stamp now : Nat} {fact : Option EventRoleType}
    {old new : Option EventRole} (h : Settles stamp fact now old new)
    (hs : ¬ EventRoleHandler.isStale stamp (old.bind (·.updatedAt)) = true) :
    (fact = none ∧ new = none) ∨
      ∃ role n, fact = some role ∧ now ≤ n ∧ new = some ⟨role, some n⟩ := by
  cases h with
  | stale h => exact absurd h hs
  | removed _ hf => exact .inl ⟨hf, rfl⟩
  | assigned _ hf hn => exact .inr ⟨_, _, hf, hn, rfl⟩

theorem Settles.mono {stamp now now' : Nat} {fact : Option EventRoleType}
    {old new : Option EventRole} (h : Settles stamp fact now' old new) (hn : now ≤ now') :
    Settles stamp fact now old new := by
  cases h with
  | stale h => exact .stale h
  | removed h hf => exact .removed h hf
  | assigned h hf hle => exact .assigned h hf (hn.trans hle)

theorem Settles.then {stamp now now' : Nat} {role : EventRoleType} {old mid new : Option EventRole}
    (h : Settles stamp none now old mid) (k : Settles stamp (some role) now' mid new)
    (hn : now ≤ now') : Settles stamp (some role) now old new := by
  cases h with
  | stale _ => exact k.mono hn
  | removed hfresh _ =>
    cases k with
    | stale h => cases h
    | removed _ hf => cases hf
    | assigned _ hf hle =>
      cases hf
      exact .assigned hfresh rfl (hn.trans hle)
  | assigned _ hf _ => cases hf

def Quiet (s t : World) : Prop := t.db = s.db ∧ s.now ≤ t.now

theorem environments_quiet (h : ReflTransGen World.Environment s t) : Quiet s t :=
  ⟨environments_db h, (Kept.of_environments h).now⟩

namespace EventRoleHandler

structure SettlesAt (e : EventId) (u : UserId) (stamp : Nat) (fact : Option EventRoleType)
    (s v : World) : Prop where
  row : Settles stamp fact s.now (s.db.roles e u) (v.db.roles e u)
  other : ∀ u' ≠ u, v.db.roles e u' = s.db.roles e u'
  now : s.now ≤ v.now

abbrev Settling (p : Program Unit) (K : World → Prop) (s : World) : Prop :=
  p.Guarantees Quiet (fun _ _ => True) (fun r v => r = .ok () → K v) s

theorem Settling.ret {K : World → Prop} (h : K s) : Settling (.ret (.ok ())) K s := fun _ => h

theorem settling_findRole {k : Option EventRole → Program Unit} {K : World → Prop}
    (h : ∀ t, Quiet s t → Settling (k (s.db.roles e u)) K t) :
    Settling (do let r ← perform (findRole e u); k r) K s :=
  Prog.Guarantees.bind <| guarantees_perform fun t ht => Block.post_call.2
    ⟨⟨trivial, nofun⟩, trivial, by simpa only [ht.1] using h t ht⟩

theorem Settling.seq {p : Program Unit} {k : Unit → Program Unit} {K K' : World → Prop}
    (h : Settling p K s) (hk : ∀ v, K v → Settling (k ()) K' v) :
    Settling (do let r ← p; k r) K' s :=
  Prog.Guarantees.bind <| h.weaken fun r v hr => by
    cases r with
    | ok _ => exact hk v (hr rfl)
    | error _ => exact nofun

section

variable {stamp : Nat} {fact : Option EventRoleType} {role : EventRoleType}

theorem SettlesAt.stale (ht : Quiet s t)
    (hstale : isStale stamp ((s.db.roles e u).bind (·.updatedAt)) = true) :
    SettlesAt e u stamp fact s t :=
  ⟨by rw [ht.1]; exact .stale hstale, fun _ _ => by rw [ht.1], ht.2⟩

theorem settling_upsertRole (ht : Quiet s t)
    (hfresh : ¬ isStale stamp ((s.db.roles e u).bind (·.updatedAt)) = true) :
    Settling (perform (upsertRole e u role)) (SettlesAt e u stamp (some role) s) t :=
  guarantees_perform fun v hv => Block.post_call.2 ⟨⟨trivial, nofun⟩, trivial, fun _ =>
    { row := by
        simp only [putEntry_self]
        exact .assigned hfresh rfl (ht.2.trans hv.2)
      other := fun u' hu => by
        simp only [putEntry_of_ne fun h => hu h.2.symm, hv.1, ht.1]
      now := ht.2.trans hv.2 }⟩

theorem settling_deleteRole (ht : Quiet s t)
    (hfresh : ¬ isStale stamp ((s.db.roles e u).bind (·.updatedAt)) = true) :
    Settling (perform (deleteRole e u)) (SettlesAt e u stamp none s) t :=
  guarantees_perform fun v hv => Block.post_call.2 ⟨⟨trivial, nofun⟩, trivial, fun _ =>
    { row := by
        simp only [putEntry_self]
        exact .removed hfresh rfl
      other := fun u' hu => by
        simp only [putEntry_of_ne fun h => hu h.2.symm, hv.1, ht.1]
      now := ht.2.trans hv.2 }⟩

theorem settling_assign : Settling (do
      let existing ← perform (findRole e u)
      if isStale stamp (existing.bind (·.updatedAt)) then pure ()
      else perform (upsertRole e u role)) (SettlesAt e u stamp (some role) s) s :=
  settling_findRole fun t ht => by
    split
    · rename_i hstale
      exact .ret (.stale ht hstale)
    · rename_i hfresh
      exact settling_upsertRole ht hfresh

end

theorem settling_roleRemoved {payload : EventRoleRemovedDTO} :
    Settling (handleRoleRemoved payload)
      (SettlesAt payload.eventId payload.userId payload.occurredAt none s) s :=
  settling_findRole fun t ht => by
    split
    · rename_i hstale
      exact .ret (.stale ht hstale)
    · rename_i hfresh
      exact settling_deleteRole ht hfresh

theorem settling_ownerChanged {payload : EventOwnerChangedDTO} :
    Settling (handleOwnerChanged payload) (fun v => ∃ m,
      (match payload.oldOwnerId with
      | some old => SettlesAt payload.eventId old payload.occurredAt none s m
      | none => m = s) ∧
      SettlesAt payload.eventId payload.newOwnerId payload.occurredAt (some .admin) m v) s := by
  unfold handleOwnerChanged
  simp only [liftM_eq]
  cases payload.oldOwnerId with
  | none => exact settling_assign.weaken fun r v hv hr => ⟨s, rfl, hv hr⟩
  | some old =>
    refine settling_findRole fun t ht => ?_
    split
    · rename_i hfresh
      refine (settling_deleteRole ht (by simpa using hfresh)).seq fun m hm => ?_
      exact settling_assign.weaken fun r v hv hr => ⟨m, hm, hv hr⟩
    · rename_i hstale
      exact settling_assign.weaken fun r v hv hr => ⟨t, .stale ht (by simpa using hstale), hv hr⟩

end EventRoleHandler

theorem settles_ownerChanged {payload : EventOwnerChangedDTO} {m : World}
    {fact : Option EventRoleType}
    (hold : match payload.oldOwnerId with
      | some old => EventRoleHandler.SettlesAt payload.eventId old payload.occurredAt none s m
      | none => m = s)
    (hnew : EventRoleHandler.SettlesAt payload.eventId payload.newOwnerId payload.occurredAt
      (some .admin) m t)
    (hf : (Call.ownerChanged payload).roleFact u = some fact) :
    Settles payload.occurredAt fact s.now (s.db.roles payload.eventId u)
      (t.db.roles payload.eventId u) := by
  simp only [Call.roleFact] at hf
  split at hf
  · rename_i hu
    cases hu
    cases hf
    cases hcase : payload.oldOwnerId with
    | none =>
      rw [hcase] at hold
      subst hold
      exact hnew.row
    | some old =>
      rw [hcase] at hold
      by_cases hne : payload.newOwnerId = old
      · subst hne
        exact hold.row.then hnew.row hold.now
      · have hm : m.db.roles payload.eventId payload.newOwnerId =
            s.db.roles payload.eventId payload.newOwnerId := hold.other _ hne
        rw [← hm]
        exact hnew.row.mono hold.now
  · rename_i hne
    split at hf
    · rename_i hu
      cases hf
      rw [hu] at hold
      rw [hnew.other u fun h => hne h.symm]
      exact hold.row
    · cases hf

theorem exec_settles {q : Request} (hex : Prog.Exec (ReflTransGen (service cfg).env)
      ((service cfg).exec q) ((service cfg).arrive q s) (.ok ()) t)
    (hq : q.call.IsRoleMessage e) {fact : Option EventRoleType}
    (hf : q.call.roleFact u = some fact) :
    Settles q.call.occurredAt fact s.now (s.db.roles e u) (t.db.roles e u) := by
  obtain ⟨c, ctx⟩ := q
  cases c with
  | roleAssigned payload =>
    obtain rfl := hq
    have hend := hex.ends EventRoleHandler.settling_assign (fun _ _ => environments_quiet) rfl
    simp only [Call.roleFact] at hf
    split at hf
    · rename_i hu
      cases hu
      cases hf
      exact hend.row
    · cases hf
  | roleRemoved payload =>
    obtain rfl := hq
    have hend := hex.ends EventRoleHandler.settling_roleRemoved
      (fun _ _ => environments_quiet) rfl
    simp only [Call.roleFact] at hf
    split at hf
    · rename_i hu
      cases hu
      cases hf
      exact hend.row
    · cases hf
  | ownerChanged payload =>
    obtain rfl := hq
    obtain ⟨m, hold, hnew⟩ := hex.ends EventRoleHandler.settling_ownerChanged
      (fun _ _ => environments_quiet) rfl
    exact settles_ownerChanged (s := (service cfg).arrive ⟨.ownerChanged payload, ctx⟩
      s) hold hnew hf
  | _ => exact hq.elim

/-- A run of role messages of `e`, all handled, none before it happened. -/
structure RoleRun (e : EventId) (h : List CallRecord) : Prop where
  message : ∀ x ∈ h, x.call.call.IsRoleMessage e
  handled : ∀ x ∈ h, x.outcome = .ok ()
  clock : ∀ x ∈ h, x.call.call.occurredAt ≤ x.before.now

theorem dependable_role {q : Request} (hq : q.call.IsRoleMessage e) : Dependable cfg q := by
  obtain ⟨c, ctx⟩ := q
  cases c with
  | roleAssigned payload => exact Succeeds.dependable EventRoleHandler.handleRoleAssigned_succeeds
  | roleRemoved payload => exact Succeeds.dependable EventRoleHandler.handleRoleRemoved_succeeds
  | ownerChanged payload => exact Succeeds.dependable EventRoleHandler.handleOwnerChanged_succeeds
  | _ => exact hq.elim

/-- While no dependency fails, every message is handled. -/
theorem RoleRun.of_reliable {h : List CallRecord} (hs : (reliable cfg).Serial s h w)
    (hmessage : ∀ x ∈ h, x.call.call.IsRoleMessage e)
    (hclock : ∀ x ∈ h, x.call.call.occurredAt ≤ x.before.now) : RoleRun e h :=
  ⟨hmessage, fun _ hx => outcome_of_dependable hs hx (dependable_role (hmessage _ hx)), hclock⟩

abbrev Call.Concerns (u : UserId) (c : Call) : Prop := (c.roleFact u).isSome = true

variable {h g g' : List CallRecord} {x : CallRecord}

theorem RoleRun.append (hg : RoleRun e (g ++ g')) : RoleRun e g ∧ RoleRun e g' :=
  ⟨⟨fun x hx => hg.message x (List.mem_append_left _ hx),
      fun x hx => hg.handled x (List.mem_append_left _ hx),
      fun x hx => hg.clock x (List.mem_append_left _ hx)⟩,
    ⟨fun x hx => hg.message x (List.mem_append_right _ hx),
      fun x hx => hg.handled x (List.mem_append_right _ hx),
      fun x hx => hg.clock x (List.mem_append_right _ hx)⟩⟩

theorem serial_now_le (hs : (service cfg).Serial s h w) : s.now ≤ w.now := by
  induction hs with
  | start => exact Nat.le_refl _
  | env _ he ih => exact ih.trans (Kept.of_environment he).now
  | call _ _ hex ih => exact ih.trans (exec_now_le hex)

theorem RoleRun.row_cases {q : Request} {r : Except Exception Unit}
    (hrun : RoleRun e (h ++ [⟨s, q, r⟩]))
    (hex : Prog.Exec (ReflTransGen (service cfg).env) ((service cfg).exec q)
      ((service cfg).arrive q s) r t) :
    (q.call.roleFact u = none ∧ t.db.roles e u = s.db.roles e u) ∨
      ∃ fact, q.call.roleFact u = some fact ∧
        Settles q.call.occurredAt fact s.now (s.db.roles e u) (t.db.roles e u) := by
  have hq : q.call.IsRoleMessage e := hrun.message ⟨s, q, r⟩ (by simp)
  have hr : r = .ok () := hrun.handled ⟨s, q, r⟩ (by simp)
  subst hr
  cases hf : q.call.roleFact u with
  | none =>
    refine .inl ⟨rfl, exec_roles_eq hex ?_⟩
    rw [Call.writesRole_iff hq, hf]
    exact Bool.false_ne_true
  | some fact => exact .inr ⟨fact, rfl, exec_settles hex hq hf⟩

theorem RoleRun.row_stays (hs : (service cfg).Serial s h w) (hrun : RoleRun e h)
    {r : EventRole} {n : Nat} (hr : s.db.roles e u = some r) (hn : r.updatedAt = some n)
    (hold : ∀ x ∈ h, x.call.call.Concerns u → x.call.call.occurredAt < n) :
    w.db.roles e u = some r := by
  induction hs with
  | start => exact hr
  | env _ he ih => rw [environment_db he]; exact ih hrun hold
  | @call g t w q o hg _ hex ih =>
    have ht := ih hrun.append.1 fun x hx => hold x (List.mem_append_left _ hx)
    rcases hrun.row_cases hex with ⟨-, hw⟩ | ⟨fact, hf, hw⟩
    · exact hw.trans ht
    · have hlt : q.call.occurredAt < n := hold ⟨t, q, o⟩ (by simp) (Option.isSome_of_eq_some hf)
      refine (hw.eq_of_stale ?_).trans ht
      simp [ht, hn, EventRoleHandler.isStale, hlt]

def NoRole (u : UserId) (h : List CallRecord) : Prop :=
  ∀ x ∈ h, ∀ role, x.call.call.roleFact u ≠ some (some role)

theorem noRole_nil : NoRole u [] := fun _ hx => absurd hx List.not_mem_nil

theorem noRole_concat : NoRole u (h ++ [x]) ↔
    NoRole u h ∧ ∀ role, x.call.call.roleFact u ≠ some (some role) := by
  simp [NoRole, or_imp, forall_and]

/-- Without a row, the first assignment that comes is taken, however old it is. -/
theorem RoleRun.row_absent_iff (hs : (service cfg).Serial s h w) (hrun : RoleRun e h)
    (h₀ : s.db.roles e u = none) {stamp : Nat} (hstamp : stamp ≤ s.now)
    (hold : ∀ x ∈ h, x.call.call.Concerns u → x.call.call.occurredAt < stamp) :
    w.db.roles e u = none ↔ NoRole u h := by
  suffices hJ : (w.db.roles e u = none ∧ NoRole u h) ∨
      ((∃ r n, w.db.roles e u = some r ∧ r.updatedAt = some n ∧ stamp ≤ n) ∧ ¬ NoRole u h) by
    rcases hJ with hJ | ⟨⟨r, -, hr, -⟩, hne⟩
    · exact ⟨fun _ => hJ.2, fun _ => hJ.1⟩
    · exact ⟨fun hnone => absurd (hr.symm.trans hnone) nofun, fun hno => absurd hno hne⟩
  induction hs with
  | start => exact .inl ⟨h₀, noRole_nil⟩
  | env _ he ih => rw [environment_db he]; exact ih hrun hold
  | @call g t w q o hg _ hex ih =>
    have hnow : stamp ≤ t.now := hstamp.trans (serial_now_le hg)
    have ht := ih hrun.append.1 fun x hx => hold x (List.mem_append_left _ hx)
    rw [noRole_concat]
    rcases hrun.row_cases hex with ⟨hf, hw⟩ | ⟨fact, hf, hw⟩
    · rw [hw, show (q.call.roleFact u = none) from hf]
      simpa using ht
    · have hlt : q.call.occurredAt < stamp :=
        hold ⟨t, q, o⟩ (by simp) (Option.isSome_of_eq_some hf)
      rcases ht with ⟨hnone, hno⟩ | ⟨⟨r, n, hr, hn, hle⟩, hno⟩
      · rcases hw.of_fresh (by simp [hnone, EventRoleHandler.isStale]) with
          ⟨rfl, hnew⟩ | ⟨role, n, rfl, hle, hnew⟩
        · exact .inl ⟨hnew, hno, fun role => by rw [hf]; simp⟩
        · exact .inr ⟨⟨_, n, hnew, rfl, hnow.trans hle⟩, fun hall => hall.2 role hf⟩
      · refine .inr ⟨⟨r, n, (hw.eq_of_stale ?_).trans hr, hn, hle⟩, fun hall => hno hall.1⟩
        simp [hr, hn, EventRoleHandler.isStale, Nat.lt_of_lt_of_le hlt hle]

/-- The message `x`, the latest about `u`, decides his role: it finds no row written later,
or one that grants the same, and after a removal nothing assigns a role to him. -/
def Prevails (e : EventId) (u : UserId) (x : CallRecord) (g' : List CallRecord) : Prop :=
  let row := x.before.db.roles e u
  let stale := EventRoleHandler.isStale x.call.call.occurredAt (row.bind (·.updatedAt))
  match x.call.call.roleFact u with
  | some (some role) => stale = false ∨ row.map (·.role) = some role
  | some none => stale = false ∧ NoRole u g'
  | none => True

theorem RoleRun.role_eq_iff (hs : (service cfg).Serial s (g ++ x :: g') w)
    (hrun : RoleRun e (g ++ x :: g')) {fact : Option EventRoleType}
    (hf : x.call.call.roleFact u = some fact)
    (hlater : ∀ y ∈ g', y.call.call.Concerns u →
      y.call.call.occurredAt < x.call.call.occurredAt) :
    (w.db.roles e u).map (·.role) = fact ↔ Prevails e u x g' := by
  obtain ⟨-, -, t, hex, hg'⟩ := hs.split
  have hx : RoleRun e [x] ∧ RoleRun e g' := RoleRun.append hrun.append.2
  have hclock := hx.1.clock x (List.mem_singleton_self x)
  have hwrite : Settles x.call.call.occurredAt fact x.before.now (x.before.db.roles e u)
      (t.db.roles e u) := by
    rw [hx.1.handled x (List.mem_singleton_self x)] at hex
    exact exec_settles hex (hx.1.message x (List.mem_singleton_self x)) hf
  simp only [Prevails, hf]
  by_cases hstale : EventRoleHandler.isStale x.call.call.occurredAt
      ((x.before.db.roles e u).bind (·.updatedAt)) = true
  · -- the row is later than the message and all that follow it
    have hkeep : w.db.roles e u = x.before.db.roles e u := by
      cases hr : x.before.db.roles e u with
      | none => simp [hr, EventRoleHandler.isStale] at hstale
      | some r =>
        cases hn : r.updatedAt with
        | none => simp [hr, hn, EventRoleHandler.isStale] at hstale
        | some n =>
          have hlt : x.call.call.occurredAt < n := by
            simpa [hr, hn, EventRoleHandler.isStale] using hstale
          exact RoleRun.row_stays hg' hx.2 ((hwrite.eq_of_stale hstale).trans hr) hn
            fun y hy hc => (hlater y hy hc).trans hlt
    cases hr : x.before.db.roles e u with
    | none => simp [hr, EventRoleHandler.isStale] at hstale
    | some r => cases fact <;> simp [hkeep, hr] at hstale ⊢ <;> simp [hstale]
  · rcases hwrite.of_fresh hstale with ⟨rfl, ht⟩ | ⟨role, n, rfl, hn, ht⟩
    · have hnow : x.call.call.occurredAt ≤ t.now := hclock.trans (exec_now_le hex)
      have := RoleRun.row_absent_iff hg' hx.2 ht hnow hlater
      simpa [hstale] using this
    · have := RoleRun.row_stays hg' hx.2 ht rfl fun y hy hc =>
        Nat.lt_of_lt_of_le (hlater y hy hc) (hclock.trans hn)
      simp [this, hstale]

/-- Of all messages in `h` about `u`, `x` reports the latest. -/
def LatestAbout (u : UserId) (x : CallRecord) (h : List CallRecord) : Prop :=
  x.call.call.Concerns u ∧
    ∀ y ∈ h, y.call.call.Concerns u → y.call.call.occurredAt ≤ x.call.call.occurredAt

theorem LatestAbout.isLatest (hx : LatestAbout u x (g ++ x :: g')) :
    IsLatest Call.occurredAt
      (((g ++ x :: g').map (·.call.call)).filter fun c => (c.roleFact u).isSome)
      (some x.call.call) := by
  refine ⟨List.mem_filter.2 ⟨List.mem_map_of_mem (by simp), hx.1⟩, fun c hc => ?_⟩
  obtain ⟨hc, hu⟩ := List.mem_filter.1 hc
  obtain ⟨y, hy, rfl⟩ := List.mem_map.1 hc
  exact hx.2 y hy hu

theorem LatestAbout.later_lt (hx : LatestAbout u x (g ++ x :: g'))
    (hnodup : ((g ++ x :: g').map (·.call.call.occurredAt)).Nodup) (y : CallRecord) (hy : y ∈ g')
    (hu : y.call.call.Concerns u) : y.call.call.occurredAt < x.call.call.occurredAt := by
  refine lt_of_le_of_ne (hx.2 y (by simp [hy]) hu) fun heq => ?_
  rw [List.map_append, List.map_cons] at hnodup
  have hnot := (List.nodup_cons.1 hnodup.of_append_right).1
  exact hnot (List.mem_map.2 ⟨y, hy, heq⟩)

theorem RoleRun.role_eq_rolesInOrder_iff (hs : (service cfg).Serial s h w) (hrun : RoleRun e h)
    (hnodup : (h.map (·.call.call.occurredAt)).Nodup) (h₀ : s.db.roles e u = none) :
    (w.db.roles e u).map (·.role) = Call.rolesInOrder (h.map (·.call.call)) u ↔
      ∀ g x g', h = g ++ x :: g' → LatestAbout u x h → Prevails e u x g' := by
  have hnodup' : ((h.map (·.call.call)).map Call.occurredAt).Nodup := by
    rwa [List.map_map]
  have hsplit : ∀ g x g', h = g ++ x :: g' → LatestAbout u x h →
      ((w.db.roles e u).map (·.role) = Call.rolesInOrder (h.map (·.call.call)) u ↔
        Prevails e u x g') := by
    rintro g x g' rfl hx
    obtain ⟨fact, hf⟩ := Option.isSome_iff_exists.1 hx.1
    rw [Call.rolesInOrder_eq hx.isLatest hnodup', Option.bind_some, hf, Option.getD_some]
    exact hrun.role_eq_iff hs hf (hx.later_lt hnodup)
  obtain ⟨o, ho⟩ := exists_isLatest Call.occurredAt
    ((h.map (·.call.call)).filter fun c => (c.roleFact u).isSome)
  cases o with
  | none =>
    have hnone : ∀ x ∈ h, ¬ x.call.call.Concerns u := fun x hx hc => by
      have hmem : x.call.call ∈ (h.map (·.call.call)).filter fun c => (c.roleFact u).isSome :=
        List.mem_filter.2 ⟨List.mem_map_of_mem hx, hc⟩
      rw [show (h.map (·.call.call)).filter _ = [] from ho] at hmem
      cases hmem
    have hrow : w.db.roles e u = none :=
      (hrun.row_absent_iff hs h₀ (Nat.zero_le _) fun x hx hc => absurd hc (hnone x hx)).2
        fun x hx role hf => hnone x hx (Option.isSome_of_eq_some hf)
    rw [Call.rolesInOrder_eq ho hnodup', hrow]
    exact ⟨fun _ g x g' hh hx => absurd hx.1 (hnone x (by simp [hh])), fun _ => rfl⟩
  | some c =>
    obtain ⟨hc, hu⟩ := List.mem_filter.1 ho.1
    obtain ⟨x, hx, rfl⟩ := List.mem_map.1 hc
    have hlatest : LatestAbout u x h := ⟨hu, fun y hy hyu =>
      ho.2 _ (List.mem_filter.2 ⟨List.mem_map_of_mem hy, hyu⟩)⟩
    obtain ⟨g, g', hh⟩ := List.append_of_mem hx
    exact ⟨fun heq g x g' hh hx => (hsplit g x g' hh hx).1 heq,
      fun hall => (hsplit g x g' hh hlatest).2 (hall g x g' hh hlatest)⟩

/-- The roles end up as if the messages had been applied in the order in which what they
report happened, exactly when the latest message about each user prevails; and a message is
handled unless a dependency fails. -/
theorem role_projection_in_order (hs : (service cfg).Serial s h w) (hrun : RoleRun e h)
    (hnodup : (h.map (·.call.call.occurredAt)).Nodup) (h₀ : ∀ u, s.db.roles e u = none) :
    ((∀ u, (w.db.roles e u).map (·.role) = Call.rolesInOrder (h.map (·.call.call)) u) ↔
      ∀ u g x g', h = g ++ x :: g' → LatestAbout u x h → Prevails e u x g') ∧
    ∀ q : Request, q.call.IsRoleMessage e → Dependable cfg q :=
  ⟨forall_congr' fun u => hrun.role_eq_rolesInOrder_iff hs hnodup (h₀ u), fun _ => dependable_role⟩

def assignedThenRemoved : List Request :=
  [⟨.roleAssigned ⟨7, 5, .admin, 0⟩, {}⟩, ⟨.roleRemoved ⟨7, 5, 5⟩, {}⟩]

def lateRun : List CallRecord × World :=
  trace plainConfig assignedThenRemoved { World.empty with now := 10 }

theorem serial_lateRun : (service plainConfig).Serial .empty lateRun.1 lateRun.2 :=
  (System.Serial.start.env (World.Environment.pass (Nat.zero_le 10))).trans
    (serial_trace assignedThenRemoved _ (by decide))

theorem roleRun_lateRun : RoleRun 7 lateRun.1 := by
  refine .of_reliable (reliable_trace assignedThenRemoved _ (by decide))
    (fun x hx => ?_) ?_
  · have hcall : x.call ∈ assignedThenRemoved := call_of_mem_trace hx
    simp only [assignedThenRemoved, List.mem_cons, List.not_mem_nil, or_false] at hcall
    rcases hcall with h | h <;> rw [h] <;> rfl
  · have : lateRun.1.all (fun x => x.call.call.occurredAt ≤ x.before.now) = true := by decide
    simpa using this

theorem role_projection_in_order_late :
    ((∀ u, (lateRun.2.db.roles 7 u).map (·.role) =
      Call.rolesInOrder (lateRun.1.map (·.call.call)) u) ↔
    ∀ u g x g', lateRun.1 = g ++ x :: g' → LatestAbout u x lateRun.1 → Prevails 7 u x g') ∧
    ∀ q : Request, q.call.IsRoleMessage 7 → Dependable plainConfig q :=
  role_projection_in_order serial_lateRun roleRun_lateRun (by decide) fun _ => rfl

/-- The removal is lost, and the user keeps the role. -/
theorem role_projection_not_in_order :
    (service plainConfig).Serial .empty lateRun.1 lateRun.2 ∧ RoleRun 7 lateRun.1 ∧
      (lateRun.1.map (·.call.call.occurredAt)).Nodup ∧
      (lateRun.2.db.roles 7 5).map (·.role) = some .admin ∧
      Call.rolesInOrder (lateRun.1.map (·.call.call)) 5 = none :=
  ⟨serial_lateRun, roleRun_lateRun, by decide, by decide, by decide⟩

end InvitationService

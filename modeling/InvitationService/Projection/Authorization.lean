import InvitationService.Projection.Access

open Relation (ReflTransGen)

namespace InvitationService

open Resumption Query LatestWins

variable {cfg : Config} {ctx : Context} {s t w : World} {e : EventId} {u : UserId} {i : Nat}
  {parent : Invitation}

/-- The user who calls, and the parent whose plus-ones the call is about. -/
def Call.plusOneParent (c : Call) (w : World) : Option (UserId × Nat) :=
  match c with
  | .createPlusOnesInvitation input u _ => input.invitedByInvitationId.map (u, ·)
  | .updatePlusOnesInvitation input u =>
    ((input.id.bind w.row).bind (·.invitedByInvitationId)).map (u, ·)
  | .removePlusOneInvitation i u => ((w.row i).bind (·.invitedByInvitationId)).map (u, ·)
  | .removeAllPlusOnesByInvitationId p u => some (u, p)
  | _ => none

def Unauthorised (cfg : Config) (u : UserId) (i : Nat) (w : World) : Prop :=
  ∀ r, w.row i = some r → GuestWrite.authority cfg w.db u r = none

abbrev Refused (p : Program α) (s : World) : Prop :=
  p.Guarantees (fun s t => t.db = s.db) (fun s t => t = s) (fun r _ => ∃ ex, r = .error ex) s

theorem Unauthorised.of_db (h : Unauthorised cfg u i s) (ht : t.db = s.db) :
    Unauthorised cfg u i t := by
  simpa only [Unauthorised, World.row, ht] using h

theorem Refused.bind {p : Program α} {g : α → Program β} (h : Refused p s) :
    Refused (do let a ← p; g a) s :=
  Prog.Guarantees.bind <| h.weaken fun r t hr => by
    obtain ⟨ex, rfl⟩ := hr
    exact ⟨ex, rfl⟩

theorem refused_transaction {q : Query α} (h : ∀ t, t.db = s.db → q.Refuses t) :
    Refused (transaction q) s :=
  guarantees_transaction_of_refuses (fun _ => rfl) h

namespace GuestWrite

theorem refuses_ensureUserCanManage (h : Unauthorised cfg u i s) :
    (ensureUserCanManageParentInvitation cfg i (some u)).Refuses s :=
  Prog.refuses_of_ends looks_ensureUserCanManage <| ends_ensureUserCanManage.2 fun r hr b hb => by
    rw [h r hr] at hb
    cases hb

theorem refused_createPlusOne {input : CreatePlusOneInput} {locale : Locale}
    (hp : input.invitedByInvitationId = some i) (h : Unauthorised cfg u i s) :
    Refused (createPlusOne cfg ctx input u locale) s := by
  unfold createPlusOne createPlusOneIds
  rw [hp]
  cases input.eventId with
  | none => exact ⟨_, rfl⟩
  | some e =>
    cases validateNames input.firstName input.lastName input.plusOneAgeCategory
        input.phoneNumbers with
    | error ex => exact ⟨ex, rfl⟩
    | ok _ =>
      change Refused (transaction (createPlusOneTransaction cfg ctx input e i u locale) >>= _) s
      refine Refused.bind (refused_transaction fun t ht => ?_)
      refine Prog.refuses_bind looks_ensureExists (ends_ensureExists.2 fun r hr => ?_)
      split
      · exact Prog.refuses_error
      · exact (refuses_ensureUserCanManage (h.of_db ht)).bind

theorem refuses_of_child {j : Nat} {g : Invitation → Nat → Query α}
    (hp : (t.row j).bind (·.invitedByInvitationId) = some i)
    (h : ∀ r, (g r i).Refuses t) :
    (do let r ← ensureExists j; let p ← Prog.ret (parentOfPlusOne r); g r p : Query
      α).Refuses t := by
  refine Prog.refuses_bind looks_ensureExists (ends_ensureExists.2 fun r hr => ?_)
  rw [hr, Option.bind_some] at hp
  simp only [parentOfPlusOne, hp]
  exact h r

theorem refused_updatePlusOne {input : UpdatePlusOneInput}
    (hp : (input.id.bind s.row).bind (·.invitedByInvitationId) = some i)
    (h : Unauthorised cfg u i s) : Refused (updatePlusOne cfg input u) s := by
  unfold updatePlusOne
  cases hid : input.id with
  | none => exact ⟨_, rfl⟩
  | some j =>
    rw [hid, Option.bind_some] at hp
    cases validateNames input.firstName input.lastName input.plusOneAgeCategory
        input.phoneNumbers with
    | error ex => exact ⟨ex, rfl⟩
    | ok _ =>
      refine refused_transaction fun t ht => refuses_of_child (by rwa [World.row, ht]) fun r => ?_
      exact (refuses_ensureUserCanManage (h.of_db ht)).bind

theorem refused_deletePlusOne {j : Nat}
    (hp : (s.row j).bind (·.invitedByInvitationId) = some i) (h : Unauthorised cfg u i s) :
    Refused (deletePlusOne cfg ctx j u) s :=
  refused_transaction fun _ ht => refuses_of_child (by rwa [World.row, ht]) fun _ =>
    (refuses_ensureUserCanManage (h.of_db ht)).bind

theorem refused_deleteAllPlusOnes (h : Unauthorised cfg u i s) :
    Refused (deleteAllPlusOnes cfg ctx i u) s :=
  refused_transaction fun _ ht =>
    Prog.refuses_bind looks_ensureExists <| ends_ensureExists.2 fun _ _ =>
      (refuses_ensureUserCanManage (h.of_db ht)).bind

end GuestWrite

theorem refused_execute {q : Request} (hq : q.call.plusOneParent s = some (u, i))
    (h : Unauthorised cfg u i s) : Refused ((service cfg).exec q) ((service cfg).arrive q s) := by
  have h : Unauthorised cfg u i ((service cfg).arrive q s) := h.of_db rfl
  obtain ⟨c, ctx⟩ := q
  cases c with
  | createPlusOnesInvitation input user locale =>
    obtain ⟨p, hp, hpu⟩ := Option.map_eq_some_iff.1 hq
    cases hpu
    exact (GuestWrite.refused_createPlusOne hp h).bind
  | updatePlusOnesInvitation input user =>
    obtain ⟨p, hp, hpu⟩ := Option.map_eq_some_iff.1 hq
    cases hpu
    exact (GuestWrite.refused_updatePlusOne (s := (service cfg).arrive _ s) hp h).bind
  | removePlusOneInvitation j user =>
    obtain ⟨p, hp, hpu⟩ := Option.map_eq_some_iff.1 hq
    cases hpu
    exact (GuestWrite.refused_deletePlusOne hp h).bind
  | removeAllPlusOnesByInvitationId p user =>
    cases hq
    exact (GuestWrite.refused_deleteAllPlusOnes h).bind
  | _ => cases hq

theorem exec_refused {q : Request} {r : Except Exception Unit}
    (hex : Prog.Exec (ReflTransGen (service cfg).env) ((service cfg).exec q)
      ((service cfg).arrive q s) r t)
    (hq : q.call.plusOneParent s = some (u, i)) (h : Unauthorised cfg u i s) :
    (∃ ex, r = .error ex) ∧ ReflTransGen World.Environment ((service cfg).arrive q s) t := by
  have hg := (refused_execute hq h).mono (fun _ _ => environments_db) (fun _ _ h => h)
    fun _ _ h => h
  have := hex.sound hg (I := ReflTransGen World.Environment ((service cfg).arrive q s)) .refl
    (fun _ _ h k => h.trans k) fun _ _ h k => k ▸ h
  exact ⟨this.2, this.1⟩

/-- The latest access message decides what the resolver returns, whatever the role is. -/
theorem unauthorised_of_message {h : List CallRecord} {payload : EventAccessDTO}
    (hw : AccessInv e u h w) (hp : payload ∈ accessMessages e u h)
    (hlatest : ∀ m ∈ accessMessages e u h, m ≠ payload → m.occurredAt < payload.occurredAt)
    (hnot : GuestWrite.managePlusOnes ∉ payload.permissions)
    (hsub : ∀ xs, cfg.uniqueEventPermissions xs ⊆ xs)
    (hrow : w.row i = some parent) (he : parent.eventId = e)
    (hguest : parent.guestProfileId ≠ some u) (hcreator : parent.invitedByUserId ≠ some u) :
    Unauthorised cfg u i w := by
  obtain ⟨r, hr, hstored⟩ := hw.says_of_latest hp hlatest
  intro x hx
  rw [hrow] at hx
  cases hx
  have hperm : GuestWrite.managePlusOnes ∉ GuestWrite.permissionsOf cfg w.db u parent.eventId := by
    rw [he, GuestWrite.permissionsOf, hr]
    exact fun hmem => hnot (hstored.permissions ▸ hsub _ hmem)
  simp [GuestWrite.authority, hguest, hcreator, hperm]

/-- Once the latest access message about a user withholds the management of plus-ones, his
operations on other people's plus-ones fail and leave everything as it was. -/
theorem plus_one_operation_denied {h : List CallRecord} {payload : EventAccessDTO} {q : Request}
    {r : Except Exception Unit}
    (hs : (service cfg).Serial s h w) (h₀ : s.db.access e u = none)
    (hdel : ∀ x ∈ h, ∀ es, x.call.call = .eventDeleted es → e ∉ es)
    (hp : payload ∈ accessMessages e u h)
    (hlatest : ∀ m ∈ accessMessages e u h, m ≠ payload → m.occurredAt < payload.occurredAt)
    (hnot : GuestWrite.managePlusOnes ∉ payload.permissions)
    (hsub : ∀ xs, cfg.uniqueEventPermissions xs ⊆ xs)
    (hq : q.call.plusOneParent w = some (u, i)) (hrow : w.row i = some parent)
    (he : parent.eventId = e) (hguest : parent.guestProfileId ≠ some u)
    (hcreator : parent.invitedByUserId ≠ some u)
    (hex : Prog.Exec (ReflTransGen (service cfg).env) ((service cfg).exec q)
      ((service cfg).arrive q w) r t) :
    (∃ ex, r = .error ex) ∧ t.db = w.db ∧ t.journal = .called q.call :: w.journal ∧
      ReflTransGen World.Environment ((service cfg).arrive q w) t := by
  have hun : Unauthorised cfg u i w :=
    unauthorised_of_message (.run hs h₀ hdel) hp hlatest hnot hsub hrow he hguest hcreator
  obtain ⟨hr, ht⟩ := exec_refused hex hq hun
  exact ⟨hr, (environments_db ht :), (environments_journal ht :), ht⟩

def revokedAdmin : List Request :=
  [⟨.createInvitation
      { eventId := some 7, maxInvitees := some 1, firstName := "A", lastName := "B" } 9,
      { tenantId := some 1 }⟩,
    ⟨.roleAssigned ⟨7, 5, .admin, 0⟩, {}⟩, ⟨.userAccessChanged revoked, {}⟩,
    ⟨.userAccessChanged granted, {}⟩]

def deniedCall : Request :=
  ⟨.createPlusOnesInvitation {
    eventId := some 7, invitedByInvitationId := some 0, firstName := "C", lastName := "D"
    plusOneAgeCategory := some .overSix } 5 "de-DE", { tenantId := some 1 }⟩

theorem plus_one_operation_denied_revoked :
    let w := (trace plainConfig revokedAdmin .empty).2
    let r := ((service plainConfig).exec deniedCall).run (fun _ _ => false)
      ((service plainConfig).arrive deniedCall w)
    (∃ ex, r.1 = .error ex) ∧ r.2.db = w.db ∧ r.2.journal = .called deniedCall.call :: w.journal ∧
      ReflTransGen World.Environment ((service plainConfig).arrive deniedCall w) r.2 := by
  have hrow : ((trace plainConfig revokedAdmin .empty).2.row 0).any (fun r =>
      r.eventId = 7 ∧ r.guestProfileId ≠ some 5 ∧ r.invitedByUserId ≠ some 5) = true := by decide
  obtain ⟨parent, hparent, hfacts⟩ := (Option.any_eq_true _ _).1 hrow
  obtain ⟨he, hguest, hcreator⟩ := of_decide_eq_true hfacts
  have hdel : ∀ x ∈ (trace plainConfig revokedAdmin .empty).1, ∀ es,
      x.call.call = .eventDeleted es → 7 ∉ es := by
    intro x hx es hc
    have hmem := call_of_mem_trace hx
    simp only [revokedAdmin, List.mem_cons, List.not_mem_nil, or_false] at hmem
    rcases hmem with h | h | h | h <;> rw [h] at hc <;> cases hc
  have hmessages : accessMessages 7 5 (trace plainConfig revokedAdmin .empty).1 =
      [revoked, granted] := by decide
  exact plus_one_operation_denied (serial_trace revokedAdmin .empty (by decide)) rfl hdel
    (by rw [hmessages]; exact List.mem_cons_self) (fun m hm hne => by
      rw [hmessages] at hm
      rcases List.mem_pair.1 hm with rfl | rfl
      · exact absurd rfl hne
      · decide)
    (by decide) (fun _ _ h => h) rfl hparent he hguest hcreator
    (Prog.exec_run (fun _ => .refl) _ _ _)

end InvitationService

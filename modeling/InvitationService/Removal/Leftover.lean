import InvitationService.Failure.Removal
import InvitationService.Invariants.Purge
import InvitationService.Removal.Order
import Mathlib.Data.List.TakeWhile

open Relation (ReflTransGen)

namespace InvitationService

open Resumption Query InvitationTable

variable {cfg : Config} {ctx : Context} {e : Option EventId} {i : Nat} {r : Invitation}
  {s t v w : World}

/-! What a rejection leaves in the cache. -/

/-- `approve` may reject `i` under the active event `e`. -/
def World.rejectable (w : World) (e : Option EventId) (i : Nat) : Bool :=
  (w.row i).any fun r => e = some r.eventId && r.status ≠ .rejected

/-- Of a list of invitations to reject, those whose turn comes: the first that is refused, or that
has been rejected before, ends the call. -/
def World.rejections (w : World) (e : Option EventId) : List Nat → List Nat
  | [] => []
  | i :: is => if w.rejectable e i then i :: (w.rejections e is).takeWhile (· ≠ i) else []

theorem World.rejections_congr (h : w.row = v.row) (is : List Nat) :
    w.rejections e is = v.rejections e is := by
  induction is with
  | nil => rfl
  | cons i is ih => rw [rejections, rejections, ih, rejectable, rejectable, h]

/-- The contacts cached for `i` are cached under the token that the row has. -/
def World.Sole (w : World) (i : Nat) : Prop :=
  ∀ token, w.cachedFor token = some i → (w.row i).bind (·.pendingContactId) = some token

structure Rejected (i : Nat) (v w : World) : Prop where
  sheds : Sheds v w
  row : ∀ j, j ≠ i → w.row j = v.row j
  next : w.db.invitations.next = v.db.invitations.next
  status : ∃ r, w.row i = some r ∧ r.status = .rejected
  bare : ∀ token, w.cachedFor token ≠ some i

theorem Rejected.purged (h : Rejected i v w) (hv : Purged v) : Purged w := fun token j hj => by
  have hji : j ≠ i := fun he => h.bare token (he ▸ hj)
  have hst := hv token j (h.sheds.cachedFor hj)
  rw [Stands, h.next]
  intro hlt
  obtain ⟨x, hx, hxs⟩ := hst hlt
  exact ⟨x, (h.row j hji).trans hx, hxs⟩

theorem Rejected.rejections (h : Rejected i v w) (is : List Nat) :
    w.rejections e is = (v.rejections e is).takeWhile (· ≠ i) := by
  obtain ⟨r, hr, hst⟩ := h.status
  have hno : w.rejectable e i = false := by simp [World.rejectable, hr, hst]
  induction is with
  | nil => rfl
  | cons j js ih =>
    rw [World.rejections, World.rejections]
    by_cases hj : j = i
    · subst hj
      rw [if_neg (by simp [hno])]
      split <;> simp
    · have hrej : w.rejectable e j = v.rejectable e j := by
        unfold World.rejectable
        rw [h.row j hj]
      rw [hrej]
      split
      · rw [ih, List.takeWhile_cons_of_pos (by simpa using hj), List.takeWhile_takeWhile,
          List.takeWhile_takeWhile]
        simp only [and_comm]
      · rfl

theorem Rejected.sole {j : Nat} (h : Rejected i v w) (hj : j ≠ i) (hv : v.Sole j) : w.Sole j :=
  fun token ht => by
    rw [h.row j hj]
    exact hv token (h.sheds.cachedFor ht)

namespace AdminWrite

theorem writeRejection_rejects {input : ApproveInvitationDTO} {s₀ : World} (hs : Rests s₀ s)
    (hbare : ∀ token, s.cachedFor token ≠ some input.id) :
    (perform (writeRejection input)).Guarantees Rests (fun _ _ => True) (fun
      | .ok _, t => Rejected input.id s₀ t
      | .error _, t => Rests s₀ t) s := by
  refine guarantees_perform fun t ht => ?_
  have hst := hs.trans _ _ _ ht
  rw [writeRejection, Prog.post_bind, post_clock]
  dsimp only
  rw [Prog.post_bind, post_updateInvitation rfl]
  refine ⟨⟨trivial, hst⟩, fun r hr => ?_, fun _ => ⟨trivial, hst⟩⟩
  dsimp only
  rw [Prog.post_bind, post_note]
  refine ⟨trivial, ?_⟩
  exact {
    sheds := hst.sheds
    row j hj := by
      rw [World.log_row, World.setInvitations_row, patch_row_of_ne hj, hst.invitations]
    next := by
      rw [World.log_db, World.setInvitations_invitations, patch_next, hst.invitations]
    status := ⟨_, by rw [World.log_row, World.setInvitations_row, patch_row_self,
      show t.db.invitations.row input.id = some r from hr]; rfl, rfl⟩
    bare token ht' := hbare token (ht.sheds.cachedFor ht') }

theorem approve_rejects {input : ApproveInvitationDTO} (ha : input.approve = false)
    (hsole : s.rejectable input.activeEventId input.id = true → s.Sole input.id) :
    (approve cfg ctx input).Guarantees Rests (fun _ _ => True) (fun
      | .ok _, t => s.rejectable input.activeEventId input.id = true ∧ Rejected input.id s t
      | .error _, t => Rests s t) s := by
  rw [approve_eq_of_reject ha]
  refine guarantees_perform_bind Rests.trans (fun _ _ h => h) rests_checkApproval (.refl s)
    (fun _ _ h => h) fun t ht => ends_checkApproval fun r hr hevent _ hno hst => ?_
  have hrow : s.row input.id = some r := by rwa [World.row, ← hst.invitations]
  have hrej : s.rejectable input.activeEventId input.id = true := by
    simp [World.rejectable, hrow, hevent, hno ha]
  have hown : ∀ token, t.cachedFor token = some input.id → r.pendingContactId = some token :=
    fun token hk => by simpa [hrow] using hsole hrej token (ht.sheds.cachedFor hk)
  have hwrite : ∀ u, Rests t u → (∀ token, u.cachedFor token ≠ some input.id) →
      (perform (writeRejection input)).Guarantees Rests (fun _ _ => True) (fun
        | .ok _, t => s.rejectable input.activeEventId input.id = true ∧ Rejected input.id s t
        | .error _, t => Rests s t) u := fun u hu hbare =>
    (writeRejection_rejects (ht.trans _ _ _ hu) hbare).weaken fun o v hv => by
      cases o with
      | ok x => exact ⟨hrej, hv⟩
      | error e => exact hv
  unfold dropOnRejection
  cases hp : r.pendingContactId with
  | none =>
    refine hwrite t (.refl t) fun token hk => ?_
    rw [hown token hk] at hp
    cases hp
  | some token =>
    refine guarantees_perform_bind Rests.trans (fun _ _ h => h) rests_cacheDelete (.refl t)
      (fun _ u hu => ht.trans _ _ _ hu) fun u hu => ends_cacheDelete.2 fun hdrop =>
        hwrite _ hdrop fun other hk => ?_
    have hother := hown other (hu.sheds.cachedFor (Sheds.drop.cachedFor hk))
    rw [hp] at hother
    cases hother
    rw [cachedFor_dropPending] at hk
    cases hk

theorem reject_purged {input : ApproveInvitationDTO} (ha : input.approve = false) (hs : Purged s)
    (hsole : ∀ i ∈ s.rejections input.activeEventId [input.id], s.Sole i) :
    (approve cfg ctx input).Guarantees Rests (fun _ _ => True) (fun _ t => Purged t) s := by
  have hone : s.rejectable input.activeEventId input.id = true → s.Sole input.id := fun hrej =>
    hsole _ (by simp [World.rejections, hrej])
  refine (approve_rejects ha hone).weaken fun o t ht => ?_
  cases o with
  | ok _ => exact ht.2.purged hs
  | error _ => exact Rests.purged ht hs

theorem bulkReject_purged {items : List ApproveInvitationDataInput} {user : UserId}
    (hs : Purged s) (hsole : ∀ i ∈ s.rejections e (items.map (·.invitationId)), s.Sole i) :
    (bulkApprove cfg ctx items false user e).Guarantees Rests (fun _ _ => True)
      (fun _ t => Purged t) s := by
  induction items generalizing s with
  | nil => exact hs
  | cons x xs ih =>
    rw [bulkApprove, Prog.forM_cons]
    have hfirst : s.rejectable e x.invitationId = true → s.Sole x.invitationId := fun hrej =>
      hsole _ (by rw [List.map_cons, World.rejections, if_pos hrej]; exact List.mem_cons_self)
    refine Prog.Guarantees.bind <| Prog.Guarantees.bind <| (approve_rejects rfl hfirst).weaken
      fun o t ht => ?_
    cases o with
    | error _ => exact ht.purged hs
    | ok _ =>
      obtain ⟨hrej, ht⟩ := ht
      refine ih (ht.purged hs) fun i hi => ?_
      rw [ht.rejections] at hi
      refine ht.sole (by simpa using List.mem_takeWhile_imp hi) (hsole i ?_)
      rw [List.map_cons, World.rejections, if_pos hrej]
      exact List.mem_cons_of_mem _ hi

end AdminWrite

/-! What a removal leaves in the cache. -/

instance {t : InvitationTable} {is : List Nat} : Decidable (AdminWrite.ChildrenFirst t is) :=
  inferInstanceAs (Decidable (is.Pairwise fun i j => t.under (· == i) j = false))

/-- The checks of a removal pass. -/
def Call.admitted (cfg : Config) (c : Call) (w : World) : Bool :=
  match c with
  | .removePlusOneInvitation i user => (w.row i).any fun r =>
      (r.invitedByInvitationId.bind w.row).any fun x =>
        (GuestWrite.authority cfg w.db user x).isSome
  | .removeAllPlusOnesByInvitationId p user =>
    (w.row p).any fun x => (GuestWrite.authority cfg w.db user x).isSome
  | .removeInvitation i e => (w.row i).any fun r => e = some r.eventId
  | .removeInvitations ids e => (ids.all fun i => (w.row i).any fun r => e = some r.eventId) &&
      AdminWrite.ChildrenFirst w.db.invitations ids
  | _ => true

theorem Call.admitted_congr {c : Call} (h : w.db = v.db) : c.admitted cfg w = c.admitted cfg v := by
  unfold Call.admitted World.row
  simp only [h]

structure Admitted (cfg : Config) (c : Call) (v w : World) : Prop where
  checks : c.admitted cfg v = true
  dropped : ∀ token ∈ tokens (c.doomed cfg v), w.cachedFor token = none

theorem Sheds.none {token : Nat} (h : Sheds v w) (hv : v.cachedFor token = none) :
    w.cachedFor token = none := by
  cases hw : w.cachedFor token with
  | none => rfl
  | some i =>
    rw [h.cachedFor hw] at hv
    cases hv

namespace GuestWrite

variable {user : UserId} {p : Nat} {rs : List Invitation}

theorem ends_dropping {α : Type} {b : Query α} (hb : b.Moves Sheds) :
    (do
      dropPendingContact r
      b).Ends (fun _ v => ∀ token, r.pendingContactId = some token →
        v.cachedFor token = none) w := by
  rw [Prog.ends_bind]
  have hfirst : (dropPendingContact r).Ends (fun _ v => ∀ token, r.pendingContactId = some token →
      v.cachedFor token = none) w := by
    unfold dropPendingContact
    cases hr : r.pendingContactId with
    | none => exact nofun
    | some token =>
      refine ends_cacheDelete.2 fun other ho => ?_
      cases ho
      exact cachedFor_dropPending
  exact hfirst.mono fun _ v hv => hb.ends fun _ u hu token ht => Sheds.none hu (hv token ht)

theorem ends_deleteChildren_dropping : (rs.mapM' deleteChild).Ends
    (fun _ v => ∀ token ∈ tokens rs, v.cachedFor token = none) w := by
  induction rs generalizing w with
  | nil => exact nofun
  | cons r rs ih =>
    rw [Prog.mapM'_cons, Prog.ends_bind]
    refine (ends_dropping sheds_deleteInvitation).mono fun x v hv => ?_
    have hrest : (rs.mapM' deleteChild).Moves Sheds :=
      Prog.Moves.mapM' Caches.refl Caches.trans fun _ => sheds_deleteChild
    refine Prog.ends_bind.2 <| ((hrest v).and ih).mono fun o u hu => ?_
    cases o with
    | error _ => trivial
    | ok rows =>
      intro token ht
      obtain ⟨y, hy, hyt⟩ := List.mem_filterMap.1 ht
      rcases List.mem_cons.1 hy with rfl | hy
      · exact hu.1.none (hv token hyt)
      · exact hu.2 token (List.mem_filterMap.2 ⟨y, hy, hyt⟩)

theorem ends_deletePlusOneTransaction_admitted : (deletePlusOneTransaction cfg ctx i user).Ends
    (fun _ v => Admitted cfg (.removePlusOneInvitation i user) w v) w := by
  refine Prog.ends_bind.2 <| ends_ensureExists.2 fun r hr => Prog.ends_bind.2 ?_
  cases hpar : parentOfPlusOne r with
  | error e => trivial
  | ok p =>
    have hp := parentOfPlusOne_ok hpar
    refine Prog.ends_ok.2 <| Prog.ends_bind.2 <| ends_ensureUserCanManage.2 fun x hx b hb => ?_
    have hdoom : Call.doomed cfg (.removePlusOneInvitation i user) w = [r] := by
      simp [Call.doomed, hr, hp, hx, hb]
    have hrest : (do
        let deleted ← deleteInvitation i
        let _ ← updateInvitation p { maxInvitees := some (.increment 1) }
        publishGuestDeleted cfg ctx r user
        pure deleted : Query Invitation).Moves Sheds :=
      sheds_deleteInvitation.bind Caches.trans fun _ => sheds_updateInvitation.bind Caches.trans
        fun _ => absorbs_caches.query <| rests_publishGuestDeleted.bind Rests.trans
          fun _ => rests_ret _
    refine (ends_dropping hrest).mono fun _ v hv => ⟨?_, fun token ht => hv token ?_⟩
    · simp [Call.admitted, hr, hp, hx, hb]
    · rw [hdoom] at ht
      simpa [tokens, List.mem_filterMap] using ht

theorem ends_deleteAllTransaction_admitted : (deleteAllTransaction cfg ctx p user).Ends
    (fun _ v => Admitted cfg (.removeAllPlusOnesByInvitationId p user) w v) w := by
  refine Prog.ends_bind.2 <| ends_ensureExists.2 fun x hx => Prog.ends_bind.2 ?_
  refine ends_ensureUserCanManage.2 fun x' hx' b hb => ?_
  obtain rfl : x' = x := Option.some.inj (hx'.symm.trans hx)
  have hdoom : Call.doomed cfg (.removeAllPlusOnesByInvitationId p user) w =
      plusOnesOf w.db.invitations p x' := by simp [Call.doomed, hx, hb]
  refine Prog.ends_bind.2 <| ends_findManyInvitations.2 <| Prog.ends_bind.2 ?_
  refine ends_deleteChildren_dropping.mono fun rows v hv => ?_
  have hsend : ∀ (ids : List UserId), (if !ids.isEmpty then do
      send cfg ctx (.deleteGuestList ids) (some user)
      pure rows else pure rows : Query (List Invitation)).Moves Rests := fun ids => by
    split
    · exact rests_send.bind Rests.trans fun _ => rests_ret _
    · exact rests_ret _
  refine (sheds_updateInvitation.bind Caches.trans fun _ => absorbs_caches.query (hsend _)).ends
    fun _ u hu => ⟨?_, fun token ht => Sheds.none hu (hv token ?_)⟩
  · simp [Call.admitted, hx, hb]
  · rwa [hdoom] at ht

end GuestWrite

theorem RemoveAll.childrenFirst {t u : InvitationTable} {is : List Nat} (h : RemoveAll t is u) :
    AdminWrite.ChildrenFirst t is := by
  induction h with
  | nil => exact .nil
  | @cons t u i is hi hrest ih =>
    have hfree : ∀ j ∈ is, t.under (· == i) j = false := fun j hj => by
      have hsome := hrest.isSome j hj
      rw [remove_row] at hsome
      split at hsome
      · cases hsome
      · rename_i hu
        simpa using hu
    exact List.pairwise_cons.2 ⟨hfree, (AdminWrite.childrenFirst_remove hfree).1 ih⟩

structure Concluded (cfg : Config) (c : Call) (v : World) {α : Type} (o : Except Exception α)
    (w : World) : Prop where
  ok : ∀ x, o = .ok x → Admitted cfg c v w
  error : ∀ ε, o = .error ε → w.db = v.db

section

variable {α : Type} {c : Call} {q : Request}

theorem Admitted.congr (h : Admitted cfg c v w) (hs : s.db = v.db) : Admitted cfg c s w :=
  ⟨(c.admitted_congr hs).trans h.checks, by rw [c.doomed_congr hs]; exact h.dropped⟩

theorem Admitted.of_checks (h : c.admitted cfg v = true) (hd : c.doomed cfg v = []) :
    Admitted cfg c v w where
  checks := h
  dropped token ht := by
    rw [hd] at ht
    cases ht

theorem concluded_ok (x : α) (h : Admitted cfg c v w) :
    Concluded cfg c v (.ok x : Except Exception α) w := ⟨fun _ _ => h, nofun⟩

theorem concluded_error (ε : Exception) (h : w.db = v.db) :
    Concluded cfg c v (.error ε : Except Exception α) w := ⟨nofun, fun _ _ => h⟩

theorem concluded_discard {p : Program α} (hp : p.Guarantees (fun s t => t.db = s.db)
    (fun _ _ => True) (Concluded cfg c v) s) : (do let _ ← p : Program Unit).Guarantees
    (fun s t => t.db = s.db) (fun _ _ => True) (Concluded cfg c v) s :=
  Prog.Guarantees.bind <| hp.weaken fun o _ h => by
    cases o with
    | ok x => exact concluded_ok () (h.ok x rfl)
    | error ε => exact concluded_error ε (h.error ε rfl)

theorem concluded_transaction {b : Query α} (hb : ∀ t, b.Ends (fun _ v => Admitted cfg c t v) t) :
    (Query.transaction b).Guarantees (fun s t => t.db = s.db) (fun _ _ => True)
      (Concluded cfg c s) s :=
  guarantees_transaction_of_ends (fun _ ht => (hb _).mono fun x _ hv =>
    concluded_ok x (hv.congr ht.symm)) fun _ _ e ht => concluded_error e ht

theorem delete_concluded : (AdminWrite.delete i e).Guarantees (fun s t => t.db = s.db)
    (fun _ _ => True) (Concluded cfg (.removeInvitation i e) s) s := by
  unfold AdminWrite.delete
  simp only [liftM_eq]
  refine guarantees_perform_bind (fun _ _ _ h k => k.trans h) (fun _ _ h => h)
    ((looks_ensureExists.bind fun _ => looks_assertMatchesActiveEvent).moves fun _ => rfl) rfl
    (fun _ _ h => concluded_error _ h) fun t ht => ?_
  simp only [Prog.ends_bind, ends_ensureExists, ends_assertMatchesActiveEvent]
  intro r hr he hst
  refine Prog.Guarantees.bind <| guarantees_perform fun u hu => ?_
  have hdb := hu.trans hst
  rw [post_deleteInvitation]
  refine ⟨⟨trivial, concluded_error _ hdb⟩, fun x _ =>
    ⟨trivial, concluded_ok _ (.of_checks ?_ rfl)⟩,
    fun _ => ⟨trivial, concluded_error _ hdb⟩⟩
  have hrow : s.row i = some r := by rwa [World.row, ← ht]
  simp [Call.admitted, hrow, he]

theorem deleteMany_concluded {ids : List Nat} : (AdminWrite.deleteMany ids e).Guarantees
    (fun s t => t.db = s.db) (fun _ _ => True) (Concluded cfg (.removeInvitations ids e) s) s := by
  refine .ite (fun _ => concluded_error _ rfl) fun _ => concluded_transaction fun t =>
    ends_deleteEach fun u hu hevent => .of_checks (Bool.and_eq_true_iff.2 ⟨?_, ?_⟩) rfl
  · refine List.all_eq_true.2 fun j hj => ?_
    obtain ⟨r, hr⟩ := Option.isSome_iff_exists.1 (hu.isSome j hj)
    have hr : t.row j = some r := hr
    simp [hr, hevent j hj r hr]
  · exact decide_eq_true hu.childrenFirst

theorem execute_concluded {q : Request} (hq : q.call.removal = true) :
    (∀ v t, Admitted cfg q.call v t) ∨ ∀ s, (execute cfg q).Guarantees (fun s t => t.db = s.db)
      (fun _ _ => True) (Concluded cfg q.call s) s := by
  obtain ⟨c, ctx⟩ := q
  cases c with
  | removePlusOneInvitation i user =>
    exact .inr fun s => concluded_discard <| concluded_transaction fun t =>
      GuestWrite.ends_deletePlusOneTransaction_admitted
  | removeAllPlusOnesByInvitationId p user =>
    exact .inr fun s => concluded_discard <| concluded_transaction fun t =>
      GuestWrite.ends_deleteAllTransaction_admitted
  | removeInvitation i e => exact .inr fun s => delete_concluded
  | removeInvitations ids e => exact .inr fun s => deleteMany_concluded
  | deleteUserInvitations user => exact .inl fun _ _ => .of_checks rfl rfl
  | deleteEventInvitations es => exact .inl fun _ _ => .of_checks rfl rfl
  | _ => cases hq

theorem execute_sheds {q : Request} (hq : q.call.removal = true) :
    (execute cfg q).Drifts Rests Sheds := by
  have hret : ∀ {α : Type} {p : Program α}, p.Drifts Rests Sheds →
      (do let _ ← p).Drifts Rests Sheds := fun hp =>
    absorbs_caches.seq hp fun _ => absorbs_caches.ret _
  obtain ⟨c, ctx⟩ := q
  cases c with
  | removePlusOneInvitation i user => exact hret GuestWrite.deletePlusOne_sheds
  | removeAllPlusOnesByInvitationId p user => exact hret GuestWrite.deleteAllPlusOnes_sheds
  | removeInvitation i e => exact AdminWrite.delete_sheds
  | removeInvitations ids e => exact AdminWrite.deleteMany_sheds
  | deleteUserInvitations user => exact InvitationWrite.deleteByGuestId_sheds
  | deleteEventInvitations es => exact InvitationWrite.deleteByEventIds_sheds
  | _ => cases hq

end

def Call.rejects (c : Call) (w : World) : List Nat :=
  match c with
  | .approveInvitation input =>
    if input.approve then [] else w.rejections input.activeEventId [input.id]
  | .bulkApproveInvitations items false _ e => w.rejections e (items.map (·.invitationId))
  | _ => []

/-- When a call finds the cache in a state that it can clean up.  For an invitation it removes, no
contact is cached but under the token of a plus-one that it deletes itself; for one it rejects,
none but under the token of the row; and it is no reply with contact details to an invitation that
is rejected, which would stay so if the reply failed. -/
structure Call.Tidy (cfg : Config) (c : Call) (w : World) : Prop where
  removed : c.admitted cfg w = true → ∀ token i, w.cachedFor token = some i →
    w.db.invitations.under (c.targets w.db.invitations) i = true → token ∈ tokens (c.doomed cfg w)
  rejected : ∀ i ∈ c.rejects w, w.Sole i
  recached : ∀ input locale r plan, c = .replyInvitation input locale →
    w.row input.invitationId = some r → GuestWrite.planReply r input = .ok plan →
    plan.decision.needsContactDetails = true → r.status ≠ .rejected

theorem Call.Tidy.log {c : Call} {x : Effect} (h : c.Tidy cfg w) : c.Tidy cfg (w.log x) where
  removed := h.removed
  rejected i hi := by
    refine h.rejected i ?_
    unfold Call.rejects at hi ⊢
    simpa only [World.rejections_congr (w.log_row x)] using hi
  recached := h.recached

theorem Call.Tidy.mild {c : Call} (hrem : c.removal = false) (hrej : c.rejects w = [])
    (hreply : ∀ input locale, c ≠ .replyInvitation input locale) : c.Tidy cfg w where
  removed _ token i _ hu := by
    have htargets : c.targets w.db.invitations = fun _ => false := by
      cases c <;> first | rfl | cases hrem
    rw [htargets] at hu
    exact (under_induction (P := fun _ => False) hu (fun _ h => by cases h) fun _ _ _ h => h).elim
  rejected i hi := by
    rw [hrej] at hi
    cases hi
  recached input locale _ _ hc := absurd hc (hreply input locale)

theorem Stands.standing {T U : InvitationTable} (hn : U.next = T.next)
    (hrow : (U.row i).map Invitation.standing = (T.row i).map Invitation.standing)
    (h : Stands T i) : Stands U i := fun hi => by
  obtain ⟨x, hx, hst⟩ := h (hn ▸ hi)
  rw [hx] at hrow
  obtain ⟨y, hy, hyx⟩ := Option.map_eq_some_iff.1 hrow
  have hsame : y.standing.status = x.standing.status := by rw [hyx]
  exact ⟨y, hy, fun hr => hst (hsame.symm.trans hr)⟩

def Call.rejecting : Call → Bool
  | .approveInvitation input => !input.approve
  | .bulkApproveInvitations _ approved _ _ => !approved
  | _ => false

def Call.confirms : Call → Bool
  | .approveInvitation _ | .bulkApproveInvitations .. | .resendGuestConfirmations ..
  | .requestGuestConfirmation .. | .seatReserved _ | .job _ => true
  | _ => false

theorem Call.confirms_of_judges {c : Call} {b : Bool} (h : c.Judges i b) : c.confirms = true := by
  cases c <;> first | rfl | exact h.elim

section

variable {q : Request} {α : Type} {p : Program α} {Q : World → Prop}

theorem guarantees_discard (hp : p.Guarantees Rests (fun _ _ => True) (fun _ t => Q t) s) :
    (do let _ ← p : Program Unit).Guarantees Rests (fun _ _ => True) (fun _ t => Q t) s :=
  Prog.Guarantees.bind <| hp.weaken fun o _ h => by cases o <;> exact h

theorem execute_rejecting (hq : q.call.rejecting = true) (hs : Purged s)
    (ht : ∀ i ∈ q.call.rejects s, s.Sole i) :
    (execute cfg q).Guarantees Rests (fun _ _ => True) (fun _ t => Purged t) s := by
  obtain ⟨c, ctx⟩ := q
  cases c with
  | approveInvitation input =>
    have ha : input.approve = false := by simpa [Call.rejecting] using hq
    refine guarantees_discard <| AdminWrite.reject_purged ha hs fun i hi => ht i ?_
    simpa [Call.rejects, ha] using hi
  | bulkApproveInvitations items approved user e =>
    obtain rfl : approved = false := by simpa [Call.rejecting] using hq
    show (Resolver.bulkApproveInvitations cfg ctx items false user e).Guarantees _ _ _ _
    unfold Resolver.bulkApproveInvitations
    cases Resolver.requireIds items with
    | error _ => exact hs
    | ok _ => exact AdminWrite.bulkReject_purged hs ht
  | _ => cases hq

theorem execute_confirming (hq : q.call.confirms = true) (hrej : q.call.rejecting = false) :
    (execute cfg q).Drifts Rests Neat := by
  have hdiscard : ∀ {α : Type} {p : Program α}, p.Drifts Rests Neat →
      (do let _ ← p : Program Unit).Drifts Rests Neat := fun hp =>
    absorbs_neat.seq hp fun _ => absorbs_neat.ret _
  obtain ⟨c, ctx⟩ := q
  cases c with
  | approveInvitation input =>
    exact hdiscard (AdminWrite.approve_neat (by simpa [Call.rejecting] using hrej))
  | bulkApproveInvitations items approved user e =>
    obtain rfl : approved = true := by simpa [Call.rejecting] using hrej
    exact absorbs_neat.seq (absorbs_neat.ret _) fun _ => absorbs_neat.forM fun _ _ =>
      hdiscard (AdminWrite.approve_neat rfl)
  | resendGuestConfirmations ids locale user e =>
    exact absorbs_neat.seq (absorbs_neat.ret _) fun _ => AdminWrite.resendGuestConfirmations_neat
  | requestGuestConfirmation input locale => exact GuestConfirmation.requestPublicResend_neat
  | seatReserved payload => exact hdiscard GuestConfirmation.sendFirstConfirmation_neat
  | job job =>
    cases job with
    | generateTicket i e seatId actorId locale => exact generateTicket_neat
    | remind i actorId preset => exact remind_neat
  | _ => cases hq

theorem execute_storing (hq : (q.call.confirms || q.call.removal) = false)
    (ht : q.call.Tidy cfg s) : (execute cfg q).Guarantees Rests (fun _ _ => True)
      (fun _ t => Caches (Stands s.db.invitations) s t) s := by
  have hnew : ∀ j, s.db.invitations.next ≤ j → Stands s.db.invitations j := fun j hj hlt =>
    absurd hlt (Nat.not_lt.2 hj)
  have hnone : ∀ {p : Program Unit}, p.Drifts Rests Sheds → p.Guarantees Rests (fun _ _ => True)
      (fun _ t => Caches (Stands s.db.invitations) s t) s := fun hp =>
    (hp s).weaken fun _ _ h => h.caches
  have hdiscard : ∀ {α : Type} {p : Program α}, p.Drifts Rests Sheds →
      (do let _ ← p : Program Unit).Guarantees Rests (fun _ _ => True)
        (fun _ t => Caches (Stands s.db.invitations) s t) s := fun hp =>
    guarantees_discard <| (hp s).weaken fun _ _ h => h.caches
  have hrest : ∀ {p : Program Unit}, p.Drifts Rests Rests → p.Guarantees Rests (fun _ _ => True)
      (fun _ t => Caches (Stands s.db.invitations) s t) s := fun hp =>
    hnone (absorbs_caches.of_rests hp)
  obtain ⟨c, ctx⟩ := q
  cases c with
  | createInvitation input user => exact hdiscard AdminWrite.create_sheds
  | importInvitations e key uploadType sheet user =>
    refine hnone (.ite (absorbs_caches.ret _) ?_)
    exact absorbs_caches.seq AdminWrite.importInvitations_sheds fun _ => absorbs_caches.ret _
  | replyInvitation input locale =>
    exact guarantees_discard <| GuestWrite.reply_caches fun r plan hr hplan hneeds =>
      .of_row hr (ht.recached input locale r plan rfl hr hplan hneeds)
  | createInvitationFromRsvp input locale =>
    exact guarantees_discard <| GuestWrite.createFromPublicRsvp_caches.weaken fun _ _ h =>
      h.mono hnew
  | createPlusOnesInvitation input user locale =>
    exact guarantees_discard <| GuestWrite.createPlusOne_caches.weaken fun _ _ h => h.mono hnew
  | updatePlusOnesInvitation input user => exact hdiscard GuestWrite.updatePlusOne_sheds
  | bulkStageInvitations ids staged e =>
    exact hnone (absorbs_caches.seq (absorbs_caches.ret _) fun _ => AdminWrite.bulkStage_sheds)
  | updateInvitationPlusOneLimit input e => exact hdiscard AdminWrite.updatePlusOneLimit_sheds
  | seatReservationFailed e i => exact hnone (absorbs_caches.ret _)
  | addGuestId i user => exact hnone handleAddGuestId_sheds
  | userAccessChanged payload => exact hrest EventRoleHandler.handleUserAccessChanged_rests
  | roleAssigned payload => exact hrest EventRoleHandler.handleRoleAssigned_rests
  | roleRemoved payload => exact hrest EventRoleHandler.handleRoleRemoved_rests
  | ownerChanged payload => exact hrest EventRoleHandler.handleOwnerChanged_rests
  | eventDeleted es => exact hrest EventRoleHandler.handleEventDeleted_rests
  | eventCreated payload tenant => exact hrest EventSettingsHandler.handleEventCreated_rests
  | eventUpdated payload tenant => exact hrest EventSettingsHandler.handleEventUpdated_rests
  | _ => cases hq

end

theorem ContactInv.kempt (h : ContactInv w) (hw : Purged w) : Kempt w where
  purged := hw
  owns i r hr := ⟨fun hid => (h.own i r hr).paired ▸ hid,
    fun p hp => ((h.own i r hr).fresh p hp).invitationId⟩

section

variable {q : Request} {o : Except Exception Unit}
  (hex : Prog.Exec (ReflTransGen (service cfg).env) ((service cfg).exec q)
    ((service cfg).arrive q s) o t)

include hex

theorem purged_of_removal (hq : q.call.removal = true) (hs : Purged s) (ht : q.call.Tidy cfg s) :
    Purged t := by
  have hsheds : Sheds s t := hex.ends (execute_sheds hq _) fun _ _ h => .of_environments h
  have hsame : t.db.invitations = s.db.invitations → Purged t := fun h =>
    Rests.purged ⟨h, hsheds⟩ hs
  rcases removal_of_exec hq hex with h | hcleared
  · exact hsame h
  have hadm : t.db.invitations = s.db.invitations ∨ Admitted cfg q.call s t := by
    rcases execute_concluded hq with hall | hset
    · exact .inr (hall s t)
    · have hend := hex.ends (hset _) fun _ _ h => environments_db h
      cases o with
      | ok x => exact .inr ((hend.ok x rfl).congr rfl)
      | error ε => exact .inl (congrArg Database.invitations (hend.error ε rfl))
  rcases hadm with h | hadm
  · exact hsame h
  intro token i hi
  have hsi := hsheds.cachedFor hi
  by_cases hu : s.db.invitations.under (q.call.targets s.db.invitations) i = true
  · rw [hadm.dropped token (ht.removed hadm.checks token i hsi hu)] at hi
    cases hi
  · exact Stands.standing hcleared.next (hcleared.row_eq (by simpa using hu)) (hs token i hsi)

/-- One call, when the cache was clean before and the call is tidy. -/
theorem exec_purged (hs : Purged s) (hown : ContactInv s) (ht : q.call.Tidy cfg s) : Purged t := by
  by_cases hrem : q.call.removal = true
  · exact purged_of_removal hex hrem hs ht
  have hrem : q.call.removal = false := by simpa using hrem
  by_cases hrej : q.call.rejecting = true
  · exact hex.ends (execute_rejecting hrej (s := (service cfg).arrive q s) hs ht.log.rejected)
      fun _ _ h => .of_environments h
  have hrej : q.call.rejecting = false := by simpa using hrej
  by_cases hconf : q.call.confirms = true
  · have hneat := hex.ends (execute_confirming hconf hrej _) fun _ _ h => Rests.of_environments h
    have hk : Kempt (s.log (.called q.call)) := ⟨hs, (hown.kempt hs).owns⟩
    exact (hneat hk).purged
  have hconf : q.call.confirms = false := by simpa using hconf
  have hquiet : (q.call.confirms || q.call.removal) = false := by rw [hconf, hrem]; rfl
  have hcaches := hex.ends (execute_storing hquiet ht.log) fun _ _ h => .of_environments h
  have hjudge : ∀ i, ¬ q.call.Judges i false := fun i hj => by
    rw [Call.confirms_of_judges hj] at hconf
    cases hconf
  intro token i hi
  have hst : Stands s.db.invitations i := (hcaches token i hi).elim (hs token i) id
  exact exec_keeps (I := fun w => Stands w.db.invitations i) hex hst
    (fun _ _ hw he => by rwa [environment_db he]) fun _ _ _ hw hA => hA.stands hjudge hrem hw

end

/-- The service while no cached contact expires or is used up. -/
abbrev retaining (cfg : Config) : System (Nat → Bool) World Exception Request :=
  { service cfg with env := Lasting }

/-- Whenever every call of a run was tidy when it came, no contact is left in the cache for an
invitation that is rejected or gone. -/
theorem contacts_purged {h : List CallRecord} (hs : (retaining cfg).Serial .empty h w)
    (ht : ∀ x ∈ h, x.call.call.Tidy cfg x.before) : Purged w := by
  induction hs with
  | start => exact nofun
  | env _ he ih => exact (Rests.of_environment he.1).purged (ih ht)
  | @call h v w q o hs _ hex ih =>
    obtain ⟨ts, hts⟩ := (System.Serial.of_env (S := service cfg) hs fun _ _ he => he.1).interleaved
    exact exec_purged (hex.mono (ReflTransGen.mono fun _ _ he => he.1))
      (ih fun x hx => ht x (List.mem_append_left _ hx)) (contactInv_of_interleaved hts)
      (ht _ (List.mem_append_right _ List.mem_cons_self))

def guestRun : List Request :=
  [⟨.createInvitation
      { eventId := some 7, maxInvitees := some 1, firstName := "A", lastName := "B" }
      5, { tenantId := some 1 }⟩,
    ⟨.createPlusOnesInvitation {
      eventId := some 7, invitedByInvitationId := some 0, firstName := "C", lastName := "D"
      plusOneAgeCategory := some .overSix } 5 "de-DE", { tenantId := some 1 }⟩]

def guestWorld : World := (trace plainConfig guestRun .empty).2

theorem contacts_purged_guest : guestWorld.cachedFor 0 = some 1 ∧
    Purged (trace plainConfig [⟨.removePlusOneInvitation 1 5, {}⟩] guestWorld).2 := by
  have hs := (@serial_trace_under plainConfig Lasting guestRun .empty (by decide)).trans
    (serial_trace_under Lasting [⟨.removePlusOneInvitation 1 5, {}⟩] guestWorld (by decide))
  refine ⟨by decide, contacts_purged hs fun x hx => ?_⟩
  rcases List.mem_append.1 hx with hx | hx
  · have hcall := call_of_mem_trace hx
    simp only [guestRun, List.mem_cons, List.not_mem_nil, or_false] at hcall
    rcases hcall with hcall | hcall <;> rw [hcall] <;> exact .mild rfl rfl nofun
  · obtain rfl := List.mem_singleton.1 hx
    refine ⟨fun _ token i hi _ => ?_, nofun, fun _ _ _ _ hc => ?_⟩
    · cases token with
      | zero => decide
      | succ n => cases hi
    · cases hc

/-- An accepted invitation is deleted. -/
theorem contacts_left : ¬ ∀ (h : List CallRecord) (w : World),
    (retaining plainConfig).Serial .empty h w → Purged w := by
  intro hall
  have hs := @serial_trace_under plainConfig Lasting
    (publicResendRun.take 2 ++ [⟨.removeInvitation 0 (some 7), {}⟩]) .empty (by decide)
  have hcached : (trace plainConfig (publicResendRun.take 2 ++
      [⟨.removeInvitation 0 (some 7), {}⟩]) .empty).2.cachedFor 0 = some 0 := by decide
  obtain ⟨r, hr, -⟩ := hall _ _ hs 0 0 hcached (by decide)
  have hgone : (trace plainConfig (publicResendRun.take 2 ++
      [⟨.removeInvitation 0 (some 7), {}⟩]) .empty).2.row 0 = none := by decide
  rw [World.row, hr] at hgone
  cases hgone

end InvitationService

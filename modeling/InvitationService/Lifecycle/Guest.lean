import InvitationService.Lifecycle.Admin

namespace InvitationService

open Resumption Query InvitationTable

variable {R : World → World → Prop} {cfg : Config} {ctx : Context} {c : Call} {a s : World}

def ChildrenOf (t : InvitationTable) (i : Nat) (rows : List Invitation) : Prop :=
  ∀ r ∈ rows, t.parent r.id = some i

theorem ChildrenOf.cons {t : InvitationTable} {i : Nat} {r : Invitation} {rows : List Invitation}
    (hr : t.parent r.id = some i) (h : ChildrenOf t i rows) : ChildrenOf t i (r :: rows) :=
  List.forall_mem_cons.2 ⟨hr, h⟩

def PendingUser.Lists (p : PendingUser) (t : InvitationTable) (i : Nat) : Prop :=
  ∀ q ∈ p.plusOnes, t.parent q.invitationId = some i

theorem Query.ends_createAll {β : Type} {xs : List β} {f : β → Invitation} {i : Nat} {w : World}
    {K : List Invitation → World → Prop} (hf : ∀ x, (f x).invitedByInvitationId = some i)
    (h : ∀ rows t, InsertAll w.db.invitations (xs.map fun x => (f x).stamped w.now) t →
      rows.length = xs.length → ChildrenOf t i rows → K rows (w.setInvitations t)) :
    (xs.mapM' fun x => createInvitation (f x)).Ends K w := by
  induction xs generalizing w K with
  | nil => exact h [] _ .nil rfl (by simp [ChildrenOf])
  | cons x xs ih =>
    rw [Prog.mapM'_cons]
    simp only [Prog.ends_bind, ends_createInvitation, Prog.ends_ok]
    intro hp
    refine ih fun rows t ht hl hrows => h _ t (.cons hp ht) (by simp [hl]) (.cons ?_ hrows)
    rw [Invitation.withId_id, ht.parent_of_lt (Nat.lt_succ_self _)]
    exact (parent_insert_next (r := (f x).stamped w.now) hp).trans (hf x)

theorem Query.moves_createAll {β : Type} {xs : List β} {f : β → Invitation} :
    (xs.mapM' fun x => createInvitation (f x)).Moves Side :=
  Prog.Moves.mapM' Side.refl Side.trans fun _ => moves_createInvitation

namespace GuestWrite

theorem decide_undecided {previous : Option RsvpChoice} {choice : RsvpChoice} {contact : Bool}
    (h : previous ≠ some .yes ∧ previous ≠ some .no) :
    RsvpDomain.decide previous choice contact = .ok (match choice with
      | .no => ⟨.no, .declined, false⟩
      | .maybe => ⟨.maybe, .pending, false⟩
      | .yes => ⟨.yes, .accepted, contact⟩) := by
  obtain ⟨hy, hn⟩ := h
  cases previous with
  | none => cases choice <;> rfl
  | some p =>
    cases p with
    | yes => exact absurd rfl hy
    | no => exact absurd rfl hn
    | maybe => cases choice <;> rfl

structure PlanSpec (r : Invitation) (input : RSVPInput) (plan : ReplyPlan) : Prop where
  undecided : r.rsvpChoice ≠ some .yes ∧ r.rsvpChoice ≠ some .no
  newChoice : plan.decision.newChoice = input.choice
  status : plan.resultingStatus = match input.choice with
    | .no => .declined
    | .maybe => .pending
    | .yes => if r.status = .approvalStaged then .approvalStaged else .accepted
  allowed : plan.allowedPlusOnes = match input.choice, input.replyInput with
    | .yes, some x => slicePrefix r.maxInvitees x.plusOnes
    | _, _ => []

theorem planReply_spec {r : Invitation} {input : RSVPInput} {plan : ReplyPlan}
    (h : planReply r input = .ok plan) : PlanSpec r input plan := by
  by_cases hu : r.rsvpChoice ≠ some .yes ∧ r.rsvpChoice ≠ some .no
  · have hif : ¬ (decide (r.rsvpChoice = some .yes) ||
      decide (r.rsvpChoice = some .no)) = true := by
      simpa using hu
    rw [planReply, if_neg hif, decide_undecided hu] at h
    cases hc : input.choice with
    | no =>
      rw [hc] at h
      simp [bind, Except.bind, pure, Except.pure] at h
      subst h
      exact ⟨hu, hc.symm, by simp [hc], by simp [hc]⟩
    | maybe =>
      rw [hc] at h
      simp [bind, Except.bind, pure, Except.pure] at h
      subst h
      exact ⟨hu, hc.symm, by simp [hc], by simp [hc]⟩
    | yes =>
      rw [hc] at h
      cases hi : input.replyInput with
      | none => simp [hi, bind, Except.bind, throw, throwThe, MonadExceptOf.throw] at h
      | some x =>
        simp [hi, bind, Except.bind, throw, throwThe, MonadExceptOf.throw] at h
        split at h
        · simp at h
        · split at h
          · simp at h
          · simp [pure, Except.pure] at h
            subst h
            exact ⟨hu, hc.symm, by simp [hc], by simp [hc, hi]⟩
  · rw [planReply, if_pos (by simp; tauto)] at h
    simp [bind, Except.bind, throw, throwThe, MonadExceptOf.throw] at h
theorem ends_enqueueReply {r : Invitation} {isUpdate : Bool} {choice : RsvpChoice} {n : Nat}
    {w : World} {K : Unit → World → Prop}
    (h : ∀ o, (∀ p, plusOnesStored p o = (if p = r.id then n else 0) ∧ announced p o = 0) →
      K () (w.addFacts o)) :
    (enqueueReply ctx r isUpdate choice n).Ends K w := by
  have hnew : (if isUpdate then "invitation.rsvp.updated.v1"
      else "invitation.rsvp.submitted.v1") ≠ "invitation.created.v1" := by
    split <;> decide
  have hdecided : (if choice = .yes then "invitation.accepted.v1"
      else "invitation.declined.v1") ≠ "invitation.created.v1" := by
    split <;> decide
  simp only [enqueueReply, Prog.ends_bind, ends_enqueue]
  intro tenant _
  split
  · rw [ends_enqueue]
    intro tenant _
    rw [World.addFacts_addFacts]
    exact h _ fun p => ⟨by simp [rsvpFact, eq_comm], by simp [hnew, hdecided]⟩
  · exact h _ fun p => ⟨by simp [rsvpFact, eq_comm], by simp [hnew]⟩

theorem moves_enqueueReply {r : Invitation} {isUpdate : Bool} {choice : RsvpChoice} {n : Nat} :
    (enqueueReply ctx r isUpdate choice n).Moves Side := by
  refine moves_enqueue.bind Side.trans fun _ => ?_
  split
  · exact moves_enqueue
  · exact Prog.moves_ret Side.refl _

theorem moves_attachPendingContact {i : Nat} {p : PendingUser} :
    (attachPendingContact i p).Moves Side :=
  (moves_side hush_cacheSet).bind Side.trans fun _ => moves_updateInvitation

theorem moves_replyTransaction {r : Invitation} {plan : ReplyPlan} {now : Nat}
    {input : RSVPInput} {locale : Locale} :
    (replyTransaction cfg ctx r plan now input locale).Moves Side := by
  have hrest : ∀ (updated : Invitation) (created : List Invitation), (do
      enqueueReply ctx updated r.rsvpChoice.isSome plan.decision.newChoice created.length
      pure (updated, created) : Query (Invitation × List Invitation)).Moves Side := fun _ _ =>
    moves_enqueueReply.bind Side.trans fun _ => Prog.moves_ret Side.refl _
  refine moves_updateInvitation.bind Side.trans fun updated => ?_
  refine moves_createAll.bind Side.trans fun created => ?_
  dsimp only
  split
  · split
    · exact Prog.moves_ret Side.refl _
    · refine (moves_side hush_clock).bind Side.trans fun _ => ?_
      exact moves_attachPendingContact.bind Side.trans fun _ => hrest updated created
  · exact hrest updated created

theorem ends_replyTransaction {r : Invitation} {plan : ReplyPlan} {now : Nat} {input : RSVPInput}
    {locale : Locale} {w : World}
    {K : Invitation × List Invitation → World → Prop} (hid : r.id = input.invitationId)
    (h : ∀ r' result t u v o, w.row input.invitationId = some r' →
      InsertAll (w.db.invitations.patch input.invitationId
          (replyUpdate cfg r plan now input.replyInput) w.now)
        (plan.allowedPlusOnes.map fun p => (replyPlusOne cfg r now
          ((input.replyInput.bind (·.selectedInvitedBy)).getD r.selectedInvitedBy) p).stamped
            w.now) t →
      (u = t ∨ ∃ token payload, w.nextToken ≤ token ∧
        FreshContact input.invitationId r.eventId payload ∧
        (input.replyInput.map (·.details) = some payload.details ∧
          payload.Lists t input.invitationId) ∧
        u = t.patch input.invitationId (pendingUpdate token payload) w.now) →
      (∀ p, plusOnesStored p o = (if p = input.invitationId then plan.allowedPlusOnes.length
        else 0) ∧ announced p o = 0) →
      v.db = ((w.setInvitations u).addFacts o).db → K result v) :
    (replyTransaction cfg ctx r plan now input locale).Ends K w := by
  simp only [replyTransaction, Prog.ends_bind, ends_updateInvitation, replyUpdate_maxInvitees]
  intro r' hr'
  have hid' : ((replyUpdate cfg r plan now input.replyInput).apply w.now r').id =
      input.invitationId := by
    rw [InvitationUpdate.apply_id, w.db.invitations.id_eq hr']
  refine ends_createAll (i := input.invitationId) (fun _ => congrArg some hid)
    fun created t ht hlen hchildren => ?_
  split
  · split
    · trivial
    · simp only [Prog.ends_bind, ends_clock, attachPendingContact, ends_cacheSet,
        ends_updateInvitation]
      rename_i replyInput hinput
      intro r'' _
      refine ends_enqueueReply fun o ho => ?_
      refine h r' _ t _ _ o hr' ht (.inr ⟨w.nextToken, _, Nat.le_refl _, ?_, ⟨?_, ?_⟩, rfl⟩)
        (fun p => ?_) rfl
      · exact ⟨hid, rfl, rfl⟩
      · rw [hinput]
        rfl
      · exact List.forall_mem_map.2 hchildren
      · rw [← hid', ← hlen]
        exact ho p
  · rw [Prog.ends_bind]
    refine ends_enqueueReply fun o ho => ?_
    refine h r' _ t t _ o hr' ht (.inl rfl) (fun p => ?_) rfl
    rw [← hid', ← hlen]
    exact ho p

theorem hush_publishSeatingInfoUpdated {e : EventId} {r : Invitation} {l : List String} :
    (publishSeatingInfoUpdated cfg ctx e r l).Moves Hush := hush_send (by trivial)

theorem hush_publishInvitationCreated {r : Invitation} :
    (publishInvitationCreated cfg ctx r).Moves Hush := hush_send (by trivial)

theorem publishAll_within (hR : Stable R cfg c a) {P : World → Prop} {e : EventId}
    {rs : List Invitation} {l : List String} (h : Known R P s) :
    (rs.forM fun r => perform (publishSeatingInfoUpdated cfg ctx e r l)).Within R
      (Action R cfg c a) (fun _ t => Known R P t) s :=
  Prog.within_forM (K := Known R P) (fun _ _ _ hP =>
    within_hush hR hush_publishSeatingInfoUpdated fun _ _ =>
      (Prog.ends_true _).mono fun _ _ _ hu => hu _ hP) h

theorem reply_conforms (hR : Stable R cfg c a) {input : RSVPInput} {locale : Locale}
    (hc : c = .replyInvitation input locale) :
    Conforms R cfg c a (reply cfg ctx input locale) a := by
  unfold reply
  simp only [liftM_eq]
  have ha : Known R (fun v => v = a) a := .of_now rfl
  refine Prog.Within.bind <| within_hush hR hush_ensureExists fun t _ => ?_
  rw [ends_ensureExists]
  intro r hr ht
  have hr₀ : Known R (fun v => v.row input.invitationId = some r) t := .of_now hr
  have hid : r.id = input.invitationId := t.db.invitations.id_eq hr
  refine Prog.Within.bind <| within_hush hR hush_findSettings fun _ _ =>
    ends_findSettings.2 fun hu => ?_
  cases hplan : planReply r input with
  | error e => trivial
  | ok plan =>
    have hspec := planReply_spec hplan
    rw [Prog.ok_bind]
    refine Prog.Within.bind <| within_hush hR hush_clock fun y _ =>
      ends_clock.2 fun hv => ?_
    refine Prog.Within.bind (Prog.Within.weaken (K := fun _ v =>
      ∃ r', v.row input.invitationId = some r' ∧ r'.status = plan.resultingStatus) ?_ ?_)
    · refine within_tx moves_replyTransaction fun w hw =>
        ends_replyTransaction hid fun r' _ t u v o hr' hins hu' ho hdb hside => ?_
      refine ⟨.step hside (o := o) ?_ (by rw [hdb]; rfl) (by rw [hdb]; rfl) (by rw [hdb]; rfl)
        (by rw [hdb]; rfl), ?_⟩
      · rw [hdb]
        obtain ⟨_, rfl, haw⟩ := hv _ (hu _ (ht _ ha)) w hw
        exact .reply hc haw (hv _ (hu _ hr₀) w hw) hr' hplan hins
          (hu'.imp_right fun ⟨k, p, hk, hp, hd, h⟩ =>
            ⟨k, p, hk, hp, by rw [hc]; exact ⟨rfl, hd.1⟩, h⟩) ho
      · have hlt : input.invitationId < w.db.invitations.next := w.db.invitations.id_lt hr'
        have hrow : t.row input.invitationId =
            some ((replyUpdate cfg r plan y.now input.replyInput).apply w.now r') := by
          rw [hins.row_of_lt (by simpa using hlt), patch_row_self]
          exact congrArg (Option.map _) hr'
        have hv : v.row input.invitationId = u.row input.invitationId := by
          rw [World.row, hdb]; rfl
        rcases hu' with rfl | ⟨token, payload, -, -, -, rfl⟩
        · exact ⟨_, hv.trans hrow, rfl⟩
        · exact ⟨_, hv.trans (by rw [patch_row_self, hrow]; rfl), rfl⟩
    · rintro ⟨result, created⟩ v ⟨r', hr', hst⟩
      refine Prog.Within.bind <| (publishAll_within hR (P := fun v =>
        ∃ r', v.row input.invitationId = some r' ∧ r'.status = plan.resultingStatus)
        (.of_now ⟨r', hr', hst⟩)).weaken fun _ x hx => ?_
      split
      · rename_i hyes
        split
        · trivial
        · refine (AdminWrite.approve_conforms hR (fun _ => ?_) (by simp [truthy]) (by simp)).seq
            fun _ _ => trivial
          refine hx.weaken fun v ⟨r', hr', hst⟩ => .inr (.inr ⟨input, locale, r', hc, rfl, hr', ?_⟩)
          have hy : input.choice = .yes := by
            rw [← hspec.newChoice]
            simp at hyes
            exact hyes.1.1
          have hns : r.status ≠ .approvalStaged := by
            simp at hyes
            exact hyes.2
          rw [hst, hspec.status, hy]
          simp [hns]
      · trivial

theorem ends_getPermissionsForUser {u : UserId} {e : EventId} {w : World}
    {K : List String → World → Prop} :
    (getPermissionsForUser cfg u e).Ends K w ↔ K (permissionsOf cfg w.db u e) w := by
  simp only [getPermissionsForUser, Prog.ends_bind, ends_findAccess, permissionsOf]
  cases w.db.access e u with
  | none => simp
  | some x => simp

theorem looks_getPermissionsForUser {u : UserId} {e : EventId} :
    (getPermissionsForUser cfg u e).Looks :=
  looks_findAccess.bind fun access => by
    cases access with
    | none => exact looks_findRole.bind fun _ => Prog.looks_ret _
    | some x => exact Prog.looks_ret _

theorem looks_ensureUserCanManage {p : Nat} {u : Option UserId} :
    (ensureUserCanManageParentInvitation cfg p u).Looks := by
  cases u with
  | none => exact Prog.looks_ret _
  | some u =>
    refine looks_ensureExists.bind fun r => ?_
    split
    · exact Prog.looks_ret _
    · refine looks_getPermissionsForUser.bind fun _ => ?_
      split <;> exact Prog.looks_ret _

theorem ends_ensureUserCanManage {p : Nat} {u : UserId} {w : World} {K : Bool → World → Prop} :
    (ensureUserCanManageParentInvitation cfg p (some u)).Ends K w ↔
      ∀ r, w.row p = some r → ∀ b, authority cfg w.db u r = some b → K b w := by
  simp only [ensureUserCanManageParentInvitation, Prog.ends_bind, ends_ensureExists, authority]
  refine forall_congr' fun r => forall_congr' fun _ => ?_
  split
  · simp
  · rw [Prog.ends_bind, ends_getPermissionsForUser]
    split <;> simp

theorem moves_createPlusOneTransaction {input : CreatePlusOneInput} {e : EventId} {p : Nat}
    {user : UserId} {locale : Locale} :
    (createPlusOneTransaction cfg ctx input e p user locale).Moves Side := by
  refine (moves_side hush_ensureExists).bind Side.trans fun parent => ?_
  split
  · exact Prog.moves_ret Side.refl _
  · refine (looks_ensureUserCanManage.moves Side.refl).bind Side.trans fun staff => ?_
    split
    · exact Prog.moves_ret Side.refl _
    · refine moves_updateManyInvitations.bind Side.trans fun n => ?_
      split
      · exact Prog.moves_ret Side.refl _
      · refine (moves_side hush_findSettings).bind Side.trans fun settings => ?_
        refine (moves_side hush_clock).bind Side.trans fun now => ?_
        refine moves_createInvitation.bind Side.trans fun child => ?_
        refine (moves_side hush_clock).bind Side.trans fun endsAt => ?_
        refine moves_attachPendingContact.bind Side.trans fun updated => ?_
        exact moves_enqueue.bind Side.trans fun _ => Prog.moves_ret Side.refl _

theorem ends_createPlusOneTransaction {input : CreatePlusOneInput} {e : EventId} {p : Nat}
    {user : UserId} {locale : Locale} {w : World} {K : Invitation × Bool → World → Prop}
    (hids : createPlusOneIds input = .ok (e, p))
    (hnames : validateNames input.firstName input.lastName input.plusOneAgeCategory
      input.phoneNumbers = .ok ())
    (h : ∀ r child autoApprove hp payload o result v,
      Admits cfg input user w p r →
      child = (plusOneChild cfg input r.eventId p user autoApprove w.now).stamped w.now →
      FreshContact w.db.invitations.next r.eventId payload → payload.plusOnes = [] →
      (∀ p, plusOnesStored p o = 0 ∧
        announced p o = if p = w.db.invitations.next then 1 else 0) →
      result.1.id = w.db.invitations.next →
      v.db = ((w.setInvitations (((w.db.invitations.patch p (capacityUpdate (-1)) w.now).insert
        child hp).patch w.db.invitations.next (pendingUpdate w.nextToken payload) w.now)).addFacts
          o).db → K result v) :
    (createPlusOneTransaction cfg ctx input e p user locale).Ends K w := by
  simp only [createPlusOneTransaction, Prog.ends_bind, ends_ensureExists]
  intro r hr
  split
  · trivial
  · rename_i he
    have he : r.eventId = e := by simpa using he
    rw [Prog.ends_bind, ends_ensureUserCanManage]
    intro r' hr' staff hstaff
    rw [hr] at hr'
    cases hr'
    split
    · trivial
    · rename_i hcontact
      have hcontact : staff = true →
          truthy input.email = true ∨ hasValidPhoneNumber input.phoneNumbers = true := by
        rintro rfl
        simpa [or_iff_not_imp_left] using hcontact
      rw [Prog.ends_bind, ends_updateManyInvitations]
      refine ⟨fun hcap => ?_, fun _ => by simp⟩
      rw [hr] at hcap
      simp only [Option.any_some, Bool.and_eq_true, decide_eq_true_eq] at hcap
      simp only [ne_eq, not_true_eq_false, if_false, Prog.ends_bind, ends_findSettings, ends_clock,
        ends_createInvitation, attachPendingContact, ends_cacheSet, ends_updateInvitation,
        ends_enqueue, World.setInvitations_now, World.setInvitations_invitations,
        World.setInvitations_settings, World.setInvitations_nextToken, World.cachePending_now,
        World.cachePending_db, Invitation.withId_id, patch_next]
      intro hp x hx tenant _
      subst he
      refine h r ((plusOneChild cfg input r.eventId p user _ w.now).stamped w.now) _ hp
        (plusOnePendingUser cfg ctx input r.eventId w.db.invitations.next _ user locale) [_] _ _
        ⟨hids, hnames, hr, ⟨staff, hstaff, hcontact⟩, hcap.2⟩ rfl ⟨rfl, rfl, rfl⟩ rfl (fun q => ?_)
        ?_ rfl
      · have hid : x.id = w.db.invitations.next := InvitationTable.id_eq _ hx
        simp [AdminWrite.invitationCreated, hid, eq_comm]
      · rw [InvitationUpdate.apply_id]
        exact InvitationTable.id_eq _ hx

theorem createPlusOne_conforms (hR : Stable R cfg c a) {input : CreatePlusOneInput}
    {user : UserId} {locale : Locale} (hc : c = .createPlusOnesInvitation input user locale) :
    Conforms R cfg c a (createPlusOne cfg ctx input user locale) a := by
  unfold createPlusOne
  simp only [liftM_eq]
  cases hids : createPlusOneIds input with
  | error e => trivial
  | ok ids =>
    obtain ⟨e, p⟩ := ids
    cases hnames : validateNames input.firstName input.lastName input.plusOneAgeCategory
        input.phoneNumbers with
    | error e => trivial
    | ok _ =>
      rw [Prog.ok_bind, Prog.ok_bind]
      refine Prog.Within.bind (Prog.Within.weaken (K := fun result v =>
        a.db.invitations.next ≤ result.1.id) ?_ ?_)
      · refine within_tx moves_createPlusOneTransaction fun t ht =>
          ends_createPlusOneTransaction hids hnames
            fun r child auto hpar payload o result v hadmits hchild hfresh _ ho hid hdb hside => ?_
        refine ⟨.step hside (o := o) ?_ (by rw [hdb]; rfl) (by rw [hdb]; rfl) (by rw [hdb]; rfl)
          (by rw [hdb]; rfl), ?_⟩
        · rw [hdb]
          exact .plusOne (h := hpar) auto hc ht hadmits hchild (Nat.le_refl _) hfresh ho
        · rw [hid]
          exact hR.next_le ht
      · rintro ⟨result, auto⟩ v hv
        refine (conforms_hush hR hush_publishInvitationCreated).seq fun _ t => ?_
        exact .ite (AdminWrite.approve_conforms hR
          (fun _ => .of_always fun _ => .inr (.inl hv)) (by simp [truthy]) (by simp)) trivial

theorem moves_parent {r : Invitation} : (Prog.ret (parentOfPlusOne r) : Query Nat).Moves Hush :=
  hush_ret _

theorem updatePlusOne_conforms {input : UpdatePlusOneInput} {user : UserId}
    (hc : c = .updatePlusOnesInvitation input user) :
    Conforms R cfg c a (updatePlusOne cfg input user) s := by
  unfold updatePlusOne
  cases input.id with
  | none => trivial
  | some i =>
    dsimp only
    cases validateNames input.firstName input.lastName input.plusOneAgeCategory
        input.phoneNumbers with
    | error e => trivial
    | ok _ =>
      rw [Prog.ok_bind]
      refine within_tx ?_ fun t _ => ?_
      · refine (moves_side hush_ensureExists).bind Side.trans fun r => ?_
        refine (moves_side moves_parent).bind Side.trans fun p => ?_
        exact (looks_ensureUserCanManage.moves Side.refl).bind Side.trans fun _ =>
          moves_updateInvitation
      · simp only [Prog.ends_bind, ends_ensureExists]
        intro r hr
        cases parentOfPlusOne r with
        | error e => trivial
        | ok p =>
          refine ends_ensureUserCanManage.2 fun _ _ _ _ =>
            (ends_updateInvitation rfl).2 fun r' _ hside => ?_
          exact ⟨.step (o := []) hside (.details hc ⟨rfl, rfl, rfl, rfl, rfl, rfl, rfl⟩) (by simp)
            rfl rfl rfl, trivial⟩

theorem parentOfPlusOne_ok {r : Invitation} {p : Nat} (h : parentOfPlusOne r = .ok p) :
    r.invitedByInvitationId = some p := by
  unfold parentOfPlusOne at h
  split at h
  · cases h; assumption
  · cases h

theorem hush_dropPendingContact {r : Invitation} : (dropPendingContact r).Moves Hush := by
  unfold dropPendingContact
  split
  · exact hush_cacheDelete
  · exact hush_ret _

theorem hush_publishGuestDeleted {r : Invitation} {user : UserId} :
    (publishGuestDeleted cfg ctx r user).Moves Hush := by
  unfold publishGuestDeleted
  split
  · exact hush_send (by trivial)
  · exact hush_ret _

abbrev deletePlusOneTransaction (cfg : Config) (ctx : Context) (id : Nat) (actorId : UserId) :
    Query Invitation := do
  let child ← ensureExists id
  let parentId ← Prog.ret (parentOfPlusOne child)
  let _ ← ensureUserCanManageParentInvitation cfg parentId (some actorId)
  dropPendingContact child
  let deleted ← deleteInvitation id
  let _ ← updateInvitation parentId { maxInvitees := some (.increment 1) }
  publishGuestDeleted cfg ctx child actorId
  return deleted

theorem deletePlusOne_eq {i : Nat} {user : UserId} : deletePlusOne cfg ctx i user =
    Query.transaction (deletePlusOneTransaction cfg ctx i user) := rfl

theorem ends_deletePlusOneTransaction {i : Nat} {user : UserId} {w : World}
    {K : Invitation → World → Prop} (h : ∀ r p x v, w.row i = some r →
      r.invitedByInvitationId = some p → v.db = (w.setInvitations
        ((w.db.invitations.remove (· == i)).patch p (capacityUpdate 1) w.now)).db → K x v) :
    (deletePlusOneTransaction cfg ctx i user).Ends K w := by
  simp only [Prog.ends_bind, ends_ensureExists]
  intro r hr
  cases hpar : parentOfPlusOne r with
  | error e => trivial
  | ok p =>
    refine ends_ensureUserCanManage.2 fun _ _ _ _ => hush_dropPendingContact.ends fun _ u hu => ?_
    simp only [ends_deleteInvitation, ends_update]
    intro r' _ x _ _
    refine hush_publishGuestDeleted.ends fun _ v hv => h r p _ v hr (parentOfPlusOne_ok hpar) ?_
    rw [hv.2, World.setInvitations_now, World.setInvitations_invitations, hu.1.now]
    simp only [World.setInvitations, hu.2]

theorem moves_deletePlusOneTransaction {i : Nat} {user : UserId} :
    (deletePlusOneTransaction cfg ctx i user).Moves Side := by
  refine (moves_side hush_ensureExists).bind Side.trans fun r => ?_
  refine (moves_side moves_parent).bind Side.trans fun p => ?_
  refine (looks_ensureUserCanManage.moves Side.refl).bind Side.trans fun _ => ?_
  refine (moves_side hush_dropPendingContact).bind Side.trans fun _ => ?_
  refine moves_deleteInvitation.bind Side.trans fun x => ?_
  refine moves_updateInvitation.bind Side.trans fun _ => ?_
  exact (moves_side hush_publishGuestDeleted).bind Side.trans fun _ => Prog.moves_ret Side.refl _

theorem deletePlusOne_conforms {i : Nat} {user : UserId}
    (hc : c = .removePlusOneInvitation i user) :
    Conforms R cfg c a (deletePlusOne cfg ctx i user) s := by
  rw [deletePlusOne_eq]
  refine within_tx moves_deletePlusOneTransaction fun t _ => ends_deletePlusOneTransaction
    fun r p x v hr hp hv hside => ⟨?_, trivial⟩
  refine .step (o := []) hside ?_ (by rw [hv]; simp) (by rw [hv]; rfl) (by rw [hv]; rfl)
    (by rw [hv]; rfl)
  rw [hv]
  exact .deleteOne hc hr hp

theorem moves_deleteChild {r : Invitation} : (deleteChild r).Moves Side :=
  (moves_side hush_dropPendingContact).bind Side.trans fun _ => moves_deleteInvitation

theorem ends_deleteChild {r : Invitation} {w : World} {K : Invitation → World → Prop}
    (h : ∀ x v, w.row r.id = some x → v.db = (w.setInvitations
      (w.db.invitations.remove (· == r.id))).db → v.now = w.now → K x v) :
    (deleteChild r).Ends K w :=
  Prog.ends_bind.2 <| hush_dropPendingContact.ends fun _ u hu =>
    ends_deleteInvitation.2 fun x hx => by
      rw [World.row, hu.2] at hx
      exact h x _ hx (by rw [World.setInvitations, hu.2]; rfl) hu.1.now

theorem ends_deleteChildren {rs : List Invitation} {w : World}
    {K : List Invitation → World → Prop}
    (h : ∀ rows t v, RemoveAll w.db.invitations (rs.map (·.id)) t →
      v.db = (w.setInvitations t).db → v.now = w.now → K rows v) :
    (rs.mapM' deleteChild).Ends K w := by
  induction rs generalizing w K with
  | nil => exact h [] _ _ .nil rfl rfl
  | cons r rs ih =>
    rw [Prog.mapM'_cons]
    simp only [Prog.ends_bind, Prog.ends_ok]
    refine ends_deleteChild fun x u hx hu hn => ih fun rows t v ht hv hm =>
      h _ t v (.cons ?_ ?_) ?_ (hm.trans hn)
    · rw [show w.db.invitations.row r.id = some x from hx]
      rfl
    · rw [hu] at ht
      exact ht
    · rw [hv, World.setInvitations, hu]
      rfl

abbrev deleteAllTransaction (cfg : Config) (ctx : Context) (parentId : Nat) (actorId : UserId) :
    Query (List Invitation) := do
  let parent ← ensureExists parentId
  let _ ← ensureUserCanManageParentInvitation cfg parentId (some actorId)
  let children ← findManyInvitations fun r =>
    r.invitedByInvitationId = some parentId && r.eventId = parent.eventId
  let fullChildren ← children.mapM' deleteChild
  let _ ← updateInvitation parentId { maxInvitees := some (.increment children.length) }
  let plusOneIds := children.filterMap (·.guestProfileId)
  if !plusOneIds.isEmpty then send cfg ctx (.deleteGuestList plusOneIds) (some actorId)
  return fullChildren

theorem deleteAllPlusOnes_eq {p : Nat} {user : UserId} : deleteAllPlusOnes cfg ctx p user =
    Query.transaction (deleteAllTransaction cfg ctx p user) := rfl

theorem ends_deleteAllTransaction {p : Nat} {user : UserId} {w : World}
    {K : List Invitation → World → Prop} (h : ∀ r is t rows v, w.row p = some r →
      is = (w.db.invitations.select fun x =>
        x.invitedByInvitationId = some p && x.eventId = r.eventId).map (·.id) →
      RemoveAll w.db.invitations is t →
      v.db = (w.setInvitations (t.patch p (capacityUpdate is.length) w.now)).db → K rows v) :
    (deleteAllTransaction cfg ctx p user).Ends K w := by
  simp only [Prog.ends_bind, ends_ensureExists, ends_findManyInvitations]
  intro r hr
  refine ends_ensureUserCanManage.2 fun _ _ _ _ => ?_
  refine ends_deleteChildren fun rows u v hu hv hn => ?_
  rw [ends_update]
  intro x _ _
  have hK : ∀ rows y, y.db = (v.setInvitations (v.db.invitations.patch p
      (capacityUpdate (w.db.invitations.select fun x => x.invitedByInvitationId = some p &&
        x.eventId = r.eventId).length) v.now)).db → K rows y := by
    intro rows y hy
    refine h r _ u rows y hr rfl hu ?_
    rw [hy, hn, List.length_map]
    simp only [World.setInvitations, hv]
  split
  · rw [Prog.ends_bind, ends_send]
    exact hK _ _ rfl
  · exact hK _ _ rfl

theorem moves_deleteAllTransaction {p : Nat} {user : UserId} :
    (deleteAllTransaction cfg ctx p user).Moves Side := by
  have hsend : ∀ (ids : List UserId) (rows : List Invitation), (if !ids.isEmpty then do
      send cfg ctx (.deleteGuestList ids) (some user)
      pure rows else pure rows : Query (List Invitation)).Moves Hush := by
    intro ids rows
    split
    · exact (hush_send (by trivial)).bind Hush.trans fun _ => hush_ret _
    · exact hush_ret _
  refine (moves_side hush_ensureExists).bind Side.trans fun r => ?_
  refine (looks_ensureUserCanManage.moves Side.refl).bind Side.trans fun _ => ?_
  refine (moves_side hush_findManyInvitations).bind Side.trans fun rs => ?_
  refine (Prog.Moves.mapM' Side.refl Side.trans fun _ => moves_deleteChild).bind Side.trans
    fun rows => ?_
  exact moves_updateInvitation.bind Side.trans fun _ => moves_side (hsend _ rows)

theorem deleteAllPlusOnes_conforms {p : Nat} {user : UserId}
    (hc : c = .removeAllPlusOnesByInvitationId p user) :
    Conforms R cfg c a (deleteAllPlusOnes cfg ctx p user) s := by
  rw [deleteAllPlusOnes_eq]
  refine within_tx moves_deleteAllTransaction fun t _ => ends_deleteAllTransaction
    fun r is u rows v hr his hu hv hside => ⟨?_, trivial⟩
  refine .step (o := []) hside ?_ (by rw [hv]; simp) (by rw [hv]; rfl) (by rw [hv]; rfl)
    (by rw [hv]; rfl)
  rw [hv]
  exact .deleteAll hc hr his hu

theorem moves_createPublicPlusOne {input : PublicRsvpInput} {i : Nat} {l : List String}
    {p : PublicPlusOneInput} : (createPublicPlusOne cfg ctx input i l p).Moves Side :=
  (moves_side hush_clock).bind Side.trans fun _ =>
    moves_createInvitation.bind Side.trans fun _ =>
      moves_enqueue.bind Side.trans fun _ =>
        moves_enqueue.bind Side.trans fun _ => Prog.moves_ret Side.refl _

theorem announced_step {n m q : Nat} (h : n < m) : ((if n = q then 1 else 0) +
    if n + 1 ≤ q ∧ q < m then 1 else 0) = if n ≤ q ∧ q < m then 1 else 0 := by
  split <;> split <;> split <;> omega

theorem ends_createPublicPlusOnes {input : PublicRsvpInput} {i : Nat} {l : List String}
    {ps : List PublicPlusOneInput} {w : World} {K : List Invitation → World → Prop}
    (h : ∀ rows t o, InsertAll w.db.invitations
        (ps.map fun p => (publicPlusOne cfg input i l w.now p).stamped w.now) t →
      rows.length = ps.length → ChildrenOf t i rows →
      (∀ p, plusOnesStored p o = 0 ∧
        announced p o = if w.db.invitations.next ≤ p ∧ p < t.next then 1 else 0) →
      K rows ((w.setInvitations t).addFacts o)) :
    (ps.mapM' (createPublicPlusOne cfg ctx input i l)).Ends K w := by
  induction ps generalizing w K with
  | nil =>
    have hnone := h [] w.db.invitations [] .nil rfl (by simp [ChildrenOf]) fun q => ⟨rfl, by
      rw [if_neg (by omega), announced_nil]⟩
    simpa using hnone
  | cons p ps ih =>
    rw [Prog.mapM'_cons]
    simp only [createPublicPlusOne, Prog.ends_bind, Prog.ends_ok, ends_clock,
      ends_createInvitation, ends_enqueue, World.addFacts_addFacts]
    intro hp tenant _ tenant' _
    refine ih fun rows t o ht hl hrows ho => ?_
    simp only [World.addFacts_setInvitations, World.setInvitations_setInvitations,
      World.addFacts_addFacts]
    refine h _ t _ (.cons hp ht) (by simp [hl]) (.cons ?_ hrows) fun q => ?_
    · rw [Invitation.withId_id]
      exact (ht.parent_of_lt (Nat.lt_succ_self _)).trans
        (parent_insert_next (r := (publicPlusOne cfg input i l w.now p).stamped w.now) hp)
    · have hzero := (ho q).1
      have hone : announced q o = if w.db.invitations.next + 1 ≤ q ∧ q < t.next then 1 else 0 :=
        (ho q).2
      have hstep := announced_step (q := q) (Nat.lt_of_succ_le ht.next_le)
      exact ⟨by simp [AdminWrite.invitationCreated, publicFact, hzero],
        by simpa [AdminWrite.invitationCreated, hone] using hstep⟩

theorem moves_publicRsvpTransaction {input : PublicRsvpInput} {settings : Option EventSettings}
    {l : List String} {note : Option String} :
    (publicRsvpTransaction cfg ctx input settings l note).Moves Side :=
  (moves_side hush_clock).bind Side.trans fun _ =>
    moves_createInvitation.bind Side.trans fun _ =>
      (Prog.Moves.mapM' Side.refl Side.trans fun _ => moves_createPublicPlusOne).bind Side.trans
        fun _ => moves_enqueue.bind Side.trans fun _ => moves_enqueue.bind Side.trans fun _ =>
          moves_enqueue.bind Side.trans fun _ => Prog.moves_ret Side.refl _

theorem ends_publicRsvpTransaction {input : PublicRsvpInput} {settings : Option EventSettings}
    {l : List String} {note : Option String} {w : World}
    {K : Invitation × List Invitation → World → Prop}
    (hnames : input.plusOnes.filter (fun p => p.firstName ≠ "" && p.lastName ≠ "") =
      input.plusOnes)
    (h : ∀ hp rows t o, InsertAll (w.db.invitations.insert
          ((publicInvitee cfg input settings l note w.now).stamped w.now) hp)
        (input.plusOnes.map fun p =>
          (publicPlusOne cfg input w.db.invitations.next l w.now p).stamped w.now) t →
      ChildrenOf t w.db.invitations.next rows →
      (∀ p, plusOnesStored p o =
        (if p = w.db.invitations.next then input.plusOnes.length else 0) ∧
        announced p o = if w.db.invitations.next ≤ p ∧ p < t.next then 1 else 0) →
      K (((publicInvitee cfg input settings l note w.now).stamped w.now).withId
        w.db.invitations.next, rows) ((w.setInvitations t).addFacts o)) :
    (publicRsvpTransaction cfg ctx input settings l note).Ends K w := by
  simp only [publicRsvpTransaction, Prog.ends_bind, ends_clock, ends_createInvitation]
  intro hp
  rw [hnames]
  refine ends_createPublicPlusOnes fun rows t o ht hl hrows ho => ?_
  simp only [ends_enqueue]
  intro tenant _ tenant' _ tenant'' _
  simp only [World.addFacts_addFacts]
  refine h hp rows t _ ht hrows fun q => ?_
  have hzero := (ho q).1
  have hone : announced q o = if w.db.invitations.next + 1 ≤ q ∧
    q < t.next then 1 else 0 := (ho q).2
  have hstep := announced_step (q := q) (Nat.lt_of_succ_le ht.next_le)
  exact ⟨by simp [AdminWrite.invitationCreated, publicFact, hzero, hl, eq_comm],
    by simpa [AdminWrite.invitationCreated, hone, Nat.add_comm] using hstep⟩

theorem validatePlusOne_ok {p : PublicPlusOneInput} (h : validatePlusOne p = .ok ()) :
    p.firstName ≠ "" ∧ p.lastName ≠ "" := by
  by_contra hp
  have hp : (p.firstName = "" || p.lastName = "") = true := by simp; tauto
  simp [validatePlusOne, hp, bind, Except.bind, throw, throwThe, MonadExceptOf.throw] at h

theorem validatePlusOnes_ok {ps : List PublicPlusOneInput}
    (h : ps.forM validatePlusOne = .ok ()) :
    ps.filter (fun p => p.firstName ≠ "" && p.lastName ≠ "") = ps := by
  rw [List.filter_eq_self]
  induction ps with
  | nil => simp
  | cons p ps ih =>
    have hp : (do validatePlusOne p; ps.forM validatePlusOne) = .ok () := h
    cases hv : validatePlusOne p with
    | error e => simp [hv, bind, Except.bind] at hp
    | ok u =>
      rw [hv] at hp
      intro q hq
      rcases List.mem_cons.1 hq with rfl | hq
      · simpa using validatePlusOne_ok hv
      · exact ih hp q hq

theorem createFromPublicRsvp_conforms (hR : Stable R cfg c a) {input : PublicRsvpInput}
    {locale : Locale} (hc : c = .createInvitationFromRsvp input locale)
    (ha : a.db.invitations.next ≤ s.db.invitations.next) :
    Conforms R cfg c a (createFromPublicRsvp cfg ctx input locale) s := by
  unfold createFromPublicRsvp
  simp only [liftM_eq]
  refine .ite trivial ?_
  cases hv : input.plusOnes.forM validatePlusOne with
  | error e => trivial
  | ok u =>
    rw [Prog.ok_bind]
    refine Prog.Within.bind <| within_hush hR hush_findSettings fun t ht =>
      ends_findSettings.2 fun _ => ?_
    refine Prog.Within.bind (Prog.Within.weaken (K := fun result u =>
      a.db.invitations.next ≤ result.1.id ∧ result.1.eventId = input.eventId ∧
        u.row result.1.id = some result.1) ?_ ?_)
    · refine within_tx moves_publicRsvpTransaction fun v hv' =>
        ends_publicRsvpTransaction (validatePlusOnes_ok hv) fun hp rows t' o hins _ ho hside => ?_
      refine ⟨.step hside (.publicRsvp hc rfl hins ho) rfl rfl rfl rfl, ?_, rfl, ?_⟩
      · exact ha.trans ((hR.next_le ht).trans (hR.next_le hv'))
      · rw [World.addFacts_row, World.setInvitations_row, hins.row_of_lt (by simp)]
        exact insert_row_next hp
    · rintro ⟨invitee, rows⟩ u ⟨hle, he, hrow⟩
      refine Prog.Within.bind <| within_hush hR hush_clock fun x _ => ends_clock.2 fun hx => ?_
      refine Prog.Within.bind <| within_hush hR hush_cacheSet fun y _ => ?_
      rw [ends_cacheSet]
      intro hy
      refine Prog.Within.bind (Prog.Within.weaken
        (K := fun updated _ => updated.id = invitee.id) ?_ ?_)
      · refine within_act fun z hz => (post_updateInvitation rfl).2
          ⟨Hush.refl z, fun r hr => ⟨?_, ?_⟩, fun _ => Hush.refl z⟩
        · refine .step (o := []) (Side.of_eq rfl rfl rfl rfl) (.attach hc hle
            (hy _ (hx _ (.of_now hrow)) z hz) ⟨rfl, he.symm, rfl⟩
            (Known.of_now ⟨World.cachePending_self .., Nat.lt_succ_self _⟩ z hz))
            (by simp) rfl rfl rfl
        · rw [InvitationUpdate.apply_id]
          exact z.db.invitations.id_eq hr
      · rintro updated z hid
        refine (conforms_hush hR hush_publishInvitationCreated).seq fun _ _ => ?_
        refine (conforms_forM fun _ _ _ => conforms_hush hR
          hush_publishSeatingInfoUpdated).seq fun _ _ => ?_
        refine .ite (AdminWrite.approve_conforms hR (fun _ => .of_always fun _ => ?_)
          (by simp [truthy]) (by simp)) trivial
        exact .inr (.inl (hid ▸ hle))

end GuestWrite
end InvitationService

import InvitationService.Failure.Removal
import InvitationService.Invariants.Capacity

open Relation (ReflTransGen)

namespace InvitationService

open Resumption Query InvitationTable GuestWrite

variable {cfg : Config} {ctx : Context} {r : Invitation} {i : Nat} {s t v w : World}

def Unused (w : World) : Prop := ∀ token, w.nextToken ≤ token → w.pendingContact token = none

theorem Unused.side (h : Unused v) (hs : Side v w) : Unused w := by
  intro token ht
  rcases hs.pendingContact token with hk | hk | hk
  · rw [hk]
    exact h token (hs.nextToken.trans ht)
  · exact hk
  · exact absurd hk.2 (Nat.not_lt.2 ht)

theorem Unused.environment (h : Unused v) (he : World.Environment v w) : Unused w := by
  cases he with
  | pass _ => exact h
  | forget token =>
    intro k hk
    by_cases hkt : k = token
    · subst hkt
      exact Function.update_self ..
    · exact (Function.update_of_ne hkt ..).trans (h k hk)
  | cool _ => exact h
  | unlock _ => exact h

theorem unused_of_reachable (h : Reachable cfg w) : Unused w := by
  obtain ⟨g, hg⟩ := h
  refine Serial.invariant_of_actions (I := Unused) hg (fun _ _ => rfl)
    (fun _ _ hs he => hs.environment he) (fun _ _ hs => hs) fun c a s t hs hA => ?_
  cases hA with
  | step hside _ _ _ _ _ => exact hs.side hside
  | project hp => exact hs.side hp.side
  | _ => exact hs

theorem cachePending_ne_none {p : PendingUser} :
    (w.cachePending p).pendingContact w.nextToken ≠ none := by
  rw [World.cachePending_self]
  exact nofun

namespace Query

theorem solo_updateManyInvitations {q : Invitation → Bool} {d : InvitationUpdate}
    (hr : w.row i = some r) (hq : q r = true) : (updateManyInvitations i q d).solo false w =
      (.ok 1, w.setInvitations (w.db.invitations.patch i d w.now)) := by
  rw [updateManyInvitations, Block.solo_call, hr]
  exact if_pos hq

theorem isSome_created {x : Invitation} (h : w.db.invitations.ParentExists x.invitedByInvitationId)
    (hi : (w.row i).isSome = true) :
    ((w.db.invitations.insert (x.stamped w.now) h).row i).isSome = true := by
  obtain ⟨y, hy⟩ := Option.isSome_iff_exists.1 hi
  have hrow : (w.db.invitations.insert (x.stamped w.now) h).row i = w.row i :=
    insert_row_of_lt (r := x.stamped w.now) h (w.db.invitations.id_lt hy)
  rwa [hrow]

theorem isSome_created_next {x : Invitation}
    (h : w.db.invitations.ParentExists x.invitedByInvitationId) :
    ((w.db.invitations.insert (x.stamped w.now) h).row w.db.invitations.next).isSome = true := by
  have hrow : (w.db.invitations.insert (x.stamped w.now) h).row w.db.invitations.next =
      some ((x.stamped w.now).withId w.db.invitations.next) :=
    insert_row_next (r := x.stamped w.now) h
  rw [hrow]
  rfl

theorem createAll_succeeds {β : Type} {xs : List β} {f : β → Invitation}
    {K : List Invitation → World → Prop} (hi : (w.row i).isSome = true)
    (hf : ∀ x, (f x).invitedByInvitationId = some i)
    (hK : ∀ rows t, (t.row i).isSome = true → K rows (w.setInvitations t)) :
    (xs.mapM' fun x => createInvitation (f x)).Succeeds false K w := by
  induction xs generalizing w K with
  | nil => exact Prog.succeeds_of rfl (hK [] w.db.invitations hi)
  | cons x xs ih =>
    have hp : w.db.invitations.ParentExists (f x).invitedByInvitationId := fun q hq => by
      rw [hf x] at hq
      cases hq
      exact hi
    rw [Prog.mapM'_cons]
    refine .step (solo_createInvitation hp) <| .bind <|
      ih (isSome_created hp hi) fun rows t ht => ?_
    exact Prog.succeeds_of rfl (hK _ t ht)

end Query

namespace GuestWrite

variable {tenantId : TenantId} {input : PublicRsvpInput} {l : List String}

theorem createPublicPlusOnes_succeeds {ps : List PublicPlusOneInput}
    {K : List Invitation → World → Prop} (ht : ctx.tenantId = some tenantId)
    (hi : (w.row i).isSome = true)
    (hK : ∀ rows v, w.db.invitations.next ≤ v.db.invitations.next → K rows v) :
    (ps.mapM' (createPublicPlusOne cfg ctx input i l)).Succeeds false K w := by
  induction ps generalizing w K with
  | nil => exact Prog.succeeds_of rfl (hK _ _ (Nat.le_refl _))
  | cons p ps ih =>
    have hp : w.db.invitations.ParentExists
        (publicPlusOne cfg input i l w.now p).invitedByInvitationId := fun q hq => by
      cases hq
      exact hi
    have hone : (createPublicPlusOne cfg ctx input i l p).Succeeds false (fun _ v =>
        (v.row i).isSome = true ∧ w.db.invitations.next ≤ v.db.invitations.next) w := by
      refine .step solo_clock <| .step (solo_createInvitation hp) <| .step (solo_enqueue ht) <|
        .step (solo_enqueue ht) <| Prog.succeeds_of rfl ⟨?_, Nat.le_succ _⟩
      exact isSome_created hp hi
    rw [Prog.mapM'_cons]
    refine .bind <| hone.mono fun created v hv => .bind <| ih hv.1 fun rows u hu => ?_
    exact Prog.succeeds_of rfl (hK _ u (hv.2.trans hu))

theorem publicRsvpTransaction_succeeds {settings : Option EventSettings} {note : Option String}
    (ht : ctx.tenantId = some tenantId) :
    (publicRsvpTransaction cfg ctx input settings l note).Succeeds false
      (fun _ v => w.db.invitations.next < v.db.invitations.next) w := by
  have hp : w.db.invitations.ParentExists
      (publicInvitee cfg input settings l note w.now).invitedByInvitationId := fun _ => nofun
  refine .step solo_clock <| .step (solo_createInvitation hp) <| .bind <|
    createPublicPlusOnes_succeeds ht (isSome_created_next hp) fun rows v hv => ?_
  exact .step (solo_enqueue ht) <| .step (solo_enqueue ht) <| .step (solo_enqueue ht) <|
    Prog.succeeds_of rfl (Nat.lt_of_succ_le hv)

theorem createFromPublicRsvp_fails {locale : Locale}
    (hphone : hasValidPhoneNumber input.phoneNumbers = true)
    (hplus : input.plusOnes.forM validatePlusOne = .ok ()) (ht : ctx.tenantId = some tenantId) :
    (createFromPublicRsvp cfg ctx input locale).MayFail (ReflTransGen Lasting)
      (fun v => w.db.invitations.next < v.db.invitations.next) w := by
  have hrefl : ∀ s, ReflTransGen Lasting s s := fun _ => .refl
  unfold createFromPublicRsvp
  simp only [liftM_eq]
  rw [if_neg (by simp [hphone]), hplus, Prog.ok_bind]
  refine .after (exec_perform hrefl solo_findSettings) ?_
  obtain ⟨result, v, hv, hlt⟩ := publicRsvpTransaction_succeeds (w := w) ht
  refine .after (exec_commits hrefl hv) <| .after (exec_perform hrefl solo_clock) ?_
  exact .first (mayFail_perform hrefl hlt)

section Reply

variable {input : RSVPInput} {locale : Locale} {plan : ReplyPlan} {now : Nat}

theorem planReply_decision (h : planReply r input = .ok plan) :
    (input.choice = .yes → plan.decision.needsContactDetails = true ∧
      input.replyInput.isSome = true) ∧
    (input.choice ≠ .yes → plan.decision.needsContactDetails = false) := by
  have hu := (planReply_spec h).undecided
  have hif : ¬ (decide (r.rsvpChoice = some .yes) || decide (r.rsvpChoice = some .no)) = true := by
    simpa using hu
  rw [planReply, if_neg hif, decide_undecided hu] at h
  cases hc : input.choice with
  | no =>
    rw [hc] at h
    cases h
    refine ⟨fun hyes => ?_, fun _ => rfl⟩
    cases hyes
  | maybe =>
    rw [hc] at h
    cases h
    refine ⟨fun hyes => ?_, fun _ => rfl⟩
    cases hyes
  | yes =>
    rw [hc] at h
    cases hi : input.replyInput with
    | none =>
      rw [hi] at h
      cases h
    | some x =>
      refine ⟨fun _ => ⟨?_, rfl⟩, fun hne => absurd rfl hne⟩
      simp [hi, bind, Except.bind, throw, throwThe, MonadExceptOf.throw] at h
      split at h
      · simp at h
      · split at h
        · simp at h
        · simp [pure, Except.pure] at h
          subst h
          rfl

theorem enqueueReply_succeeds {isUpdate : Bool} {choice : RsvpChoice} {n : Nat}
    (ht : ctx.tenantId = some tenantId) : (enqueueReply ctx r isUpdate choice n).Succeeds false
      (fun _ v => v.db.outbox ≠ w.db.outbox) w := by
  refine .step (solo_enqueue ht) ?_
  split
  · exact Prog.succeeds_of (solo_enqueue ht) (by simp)
  · exact Prog.succeeds_of rfl (by simp)

theorem replyTransaction_succeeds {x : Invitation} (hx : w.row input.invitationId = some x)
    (hneeds : plan.decision.needsContactDetails = false) (hnone : plan.allowedPlusOnes = [])
    (ht : ctx.tenantId = some tenantId) :
    (replyTransaction cfg ctx r plan now input locale).Succeeds false
      (fun _ v => v.db.outbox ≠ w.db.outbox) w := by
  unfold replyTransaction
  rw [hnone]
  refine .step (solo_updateInvitation hx rfl) <| .step rfl ?_
  rw [if_neg (by simp [hneeds])]
  exact .bind <| (enqueueReply_succeeds ht).mono fun _ v hv => Prog.succeeds_of rfl hv

theorem replyTransaction_fails {x : Invitation} (hx : w.row input.invitationId = some x)
    (hid : r.id = input.invitationId) (hneeds : plan.decision.needsContactDetails = true)
    (hsome : input.replyInput.isSome = true) :
    (replyTransaction cfg ctx r plan now input locale).MayFail Eq
      (fun v => v.pendingContact w.nextToken ≠ none) w := by
  obtain ⟨y, hy⟩ := Option.isSome_iff_exists.1 hsome
  have hrefl : ∀ s : World, s = s := fun _ => rfl
  unfold replyTransaction
  refine .step hrefl (solo_updateInvitation hx rfl) <| .of_succeeds hrefl <|
    createAll_succeeds (i := input.invitationId) ?_ (fun _ => congrArg some hid) fun rows t _ => ?_
  · rw [World.setInvitations_row, patch_row_self]
    rw [show w.db.invitations.row input.invitationId = some x from hx]
    rfl
  · rw [if_pos hneeds, hy]
    refine .step hrefl solo_clock <| .first <| .step hrefl solo_cacheSet <| Block.mayFail_call ?_
    exact cachePending_ne_none

theorem reply_fails (hr : w.row input.invitationId = some r) (hplan : planReply r input = .ok plan)
    (hgo : input.choice = .yes ∨ ctx.tenantId ≠ none) :
    (reply cfg ctx input locale).MayFail (ReflTransGen Lasting) (fun v =>
      v.pendingContact w.nextToken ≠ none ∨ v.db.outbox ≠ w.db.outbox) w := by
  have hrefl : ∀ s, ReflTransGen Lasting s s := fun _ => .refl
  have hdec := planReply_decision hplan
  have hspec := planReply_spec hplan
  unfold reply
  simp only [liftM_eq]
  refine .after (exec_perform hrefl (solo_ensureExists hr)) <|
    .after (exec_perform hrefl solo_findSettings) ?_
  rw [hplan, Prog.ok_bind]
  refine .after (exec_perform hrefl solo_clock) ?_
  by_cases hyes : input.choice = .yes
  · obtain ⟨hneeds, hsome⟩ := hdec.1 hyes
    refine .first <| mayFail_transaction hrefl ?_
    have hfails : (replyTransaction cfg ctx r plan w.now input locale).MayFail Eq
        (fun v => v.pendingContact w.nextToken ≠ none) w :=
      replyTransaction_fails hr (w.db.invitations.id_eq hr) hneeds hsome
    obtain ⟨e, v, hv, hcached⟩ := hfails
    exact ⟨e, v, hv, .inl hcached⟩
  · have hallowed : plan.allowedPlusOnes = [] := by
      rw [hspec.allowed]
      split
      · exact absurd ‹_› hyes
      · rfl
    obtain ⟨tenantId, ht⟩ := Option.ne_none_iff_exists'.1 (hgo.resolve_left hyes)
    have hdone : (replyTransaction cfg ctx r plan w.now input locale).Succeeds false
        (fun _ v => v.db.outbox ≠ w.db.outbox) w :=
      replyTransaction_succeeds hr (hdec.2 hyes) hallowed ht
    obtain ⟨result, v, hv, hout⟩ := hdone
    exact .after (exec_commits hrefl hv) <| .first <| .first <| mayFail_perform hrefl (.inr hout)

end Reply

theorem createPlusOneTransaction_fails {input : CreatePlusOneInput} {p : Nat} {user : UserId}
    {locale : Locale} (h : Admits cfg input user w p r) :
    (createPlusOneTransaction cfg ctx input r.eventId p user locale).MayFail Eq
      (fun v => v.pendingContact w.nextToken ≠ none) w := by
  obtain ⟨staff, hstaff, hcontact⟩ := h.manager
  have hrefl : ∀ s : World, s = s := fun _ => rfl
  unfold createPlusOneTransaction
  refine .step hrefl (solo_ensureExists h.row) ?_
  rw [if_neg (by simp)]
  refine .step hrefl (solo_ensureUserCanManage h.row hstaff) ?_
  rw [if_neg (by simpa [or_iff_not_imp_left] using hcontact)]
  refine .step hrefl (solo_updateManyInvitations h.row (by simp [h.capacity])) ?_
  rw [if_neg (by simp)]
  refine .step hrefl solo_findSettings <| .step hrefl solo_clock ?_
  have hparent : ((w.db.invitations.patch p (capacityUpdate (-1)) w.now).row p).isSome = true := by
    rw [isSome_patch_row, show w.db.invitations.row p = some r from h.row]
    rfl
  refine .step hrefl (solo_createInvitation fun q hq => ?_) <| .step hrefl solo_clock <| .first <|
    .step hrefl solo_cacheSet <| Block.mayFail_call ?_
  · cases hq
    exact hparent
  · exact cachePending_ne_none

def Unmarked (s t : World) : Prop := t.db = s.db ∧ t.pendingContact = s.pendingContact

theorem Unmarked.refl (s : World) : Unmarked s s := ⟨rfl, rfl⟩

theorem Unmarked.trans (s t u : World) (h : Unmarked s t) (k : Unmarked t u) : Unmarked s u :=
  ⟨k.1.trans h.1, k.2.trans h.2⟩

theorem Unmarked.of_lasting (s t : World) (h : ReflTransGen Lasting s t) : Unmarked s t :=
  ⟨(Lasting.star h).1, (Lasting.star h).2.1⟩

abbrev Vain {α : Type} (p : Program α) (w v : World) : Prop :=
  p.Guarantees (ReflTransGen Lasting) (fun _ _ => True)
    (fun o u => (∃ e, o = .error e) ∧ Unmarked w u) v

theorem Vain.bind {α β : Type} {p : Program α} {g : α → Program β} (h : Vain p w v) :
    Vain (p >>= g) w v :=
  Prog.Guarantees.bind <| h.weaken fun o t ht => by
    obtain ⟨⟨e, rfl⟩, ht⟩ := ht
    exact ⟨⟨e, rfl⟩, ht⟩

theorem vain_error {α : Type} {e : Exception} (h : Unmarked w v) :
    Vain (.ret (.error e) : Program α) w v := ⟨⟨e, rfl⟩, h⟩

theorem vain_after {α β : Type} {b : Query α} {g : α → Program β} (hv : Unmarked w v)
    (hb : b.Looks) (h : ∀ t, Unmarked w t → b.Ends (fun a u => Unmarked w u → Vain (g a) w u) t) :
    Vain (perform b >>= g) w v :=
  guarantees_perform_bind Unmarked.trans Unmarked.of_lasting (hb.moves Unmarked.refl) hv
    (fun e _ hu => ⟨⟨e, rfl⟩, hu⟩) h

def Uncached (s t : World) : Prop := t.pendingContact = s.pendingContact

theorem Uncached.refl (s : World) : Uncached s s := Eq.refl s.pendingContact

theorem Uncached.trans (s t u : World) (h : Uncached s t) (k : Uncached t u) : Uncached s u :=
  Eq.trans k h

theorem vain_transaction {α : Type} {b : Query α} (hv : Unmarked w v) (hb : b.Moves Uncached)
    (h : ∀ t, Unmarked w t → b.Ends (fun _ _ => False) t) : Vain (Query.transaction b) w v := by
  refine guarantees_transaction fun t ht => ?_
  have ht := Unmarked.trans w v t hv (.of_lasting v t ht)
  refine ((hb t).and (h t ht)).mono fun o u hu => ?_
  cases o with
  | ok a => exact hu.2.elim
  | error e => exact ⟨trivial, ⟨e, rfl⟩, ht.1, Eq.trans hu.1 ht.2⟩

theorem vain_transaction_of_refuses {α : Type} {b : Query α} (hv : Unmarked w v)
    (h : ∀ t, Unmarked w t → b.Refuses t) : Vain (Query.transaction b) w v := by
  refine guarantees_transaction fun t ht => ?_
  have ht := Unmarked.trans w v t hv (.of_lasting v t ht)
  refine (h t ht).mono fun o u hu => ?_
  obtain ⟨⟨e, rfl⟩, rfl⟩ := hu
  exact ⟨trivial, ⟨e, rfl⟩, ht⟩

section

variable {locale : Locale}

theorem ends_enqueue_tenantless {topic : String} {fact : AnalyticsFact}
    {K : Unit → World → Prop} (ht : ctx.tenantId = none) : (enqueue ctx topic fact).Ends K w := by
  rw [ends_enqueue, ht]
  exact fun _ => nofun

theorem uncached_call {α : Type} {e : Exception} {f : World → Except Exception α × World}
    (hf : ∀ w, (f w).2.pendingContact = w.pendingContact) : (Block.call e f).Moves Uncached :=
  Block.moves_call Uncached.refl hf

theorem uncached_updateInvitation {d : InvitationUpdate} : (updateInvitation i d).Moves Uncached :=
  moves_update Uncached.refl fun _ => rfl

theorem uncached_createInvitation : (createInvitation r).Moves Uncached :=
  uncached_call fun w => by split <;> rfl

theorem uncached_clock : clock.Moves Uncached := Block.moves_observe Uncached.refl

theorem uncached_enqueue {topic : String} {fact : AnalyticsFact} :
    (enqueue ctx topic fact).Moves Uncached := by
  unfold enqueue
  split
  · exact Prog.moves_ret Uncached.refl _
  · exact uncached_call fun _ => rfl

theorem uncached_enqueueReply {isUpdate : Bool} {choice : RsvpChoice} {n : Nat} :
    (enqueueReply ctx r isUpdate choice n).Moves Uncached := by
  refine uncached_enqueue.bind Uncached.trans fun _ => ?_
  split
  · exact uncached_enqueue
  · exact Prog.moves_ret Uncached.refl _

theorem uncached_replyTransaction {input : RSVPInput} {plan : ReplyPlan} {now : Nat}
    (hneeds : plan.decision.needsContactDetails = false) :
    (replyTransaction cfg ctx r plan now input locale).Moves Uncached := by
  unfold replyTransaction
  refine uncached_updateInvitation.bind Uncached.trans fun x => ?_
  refine (Prog.Moves.mapM' Uncached.refl Uncached.trans fun _ => uncached_createInvitation).bind
    Uncached.trans fun rows => ?_
  rw [if_neg (by simp [hneeds])]
  exact uncached_enqueueReply.bind Uncached.trans fun _ => Prog.moves_ret Uncached.refl _

theorem ends_replyTransaction_tenantless {input : RSVPInput} {plan : ReplyPlan} {now : Nat}
    (hneeds : plan.decision.needsContactDetails = false) (ht : ctx.tenantId = none) :
    (replyTransaction cfg ctx r plan now input locale).Ends (fun _ _ => False) w := by
  unfold replyTransaction
  refine Prog.ends_bind.2 <| (Prog.ends_true _).mono fun x t _ => ?_
  refine Prog.ends_bind.2 <| (Prog.ends_true _).mono fun rows t _ => ?_
  rw [if_neg (by simp [hneeds])]
  exact Prog.ends_bind.2 <| Prog.ends_bind.2 <| ends_enqueue_tenantless ht

theorem reply_vain {input : RSVPInput} (h : ∀ r plan, w.row input.invitationId = some r →
      planReply r input = .ok plan → input.choice ≠ .yes ∧ ctx.tenantId = none) :
    Vain (reply cfg ctx input locale) w w := by
  unfold reply
  simp only [liftM_eq]
  refine vain_after (.refl w) looks_ensureExists fun t ht => ends_ensureExists.2 fun r hr hu => ?_
  have hrow : w.row input.invitationId = some r := by rwa [World.row, ← ht.1]
  refine vain_after hu (Block.looks_call fun _ => rfl) fun t ht => ends_findSettings.2 fun hu => ?_
  cases hplan : planReply r input with
  | error e => exact vain_error hu
  | ok plan =>
    obtain ⟨hyes, htenant⟩ := h r plan hrow hplan
    have hneeds := (planReply_decision hplan).2 hyes
    rw [Prog.ok_bind]
    refine vain_after hu (Block.moves_observe fun _ => rfl) fun t ht => ends_clock.2 fun hu => ?_
    exact (vain_transaction hu (uncached_replyTransaction hneeds) fun t _ =>
      ends_replyTransaction_tenantless hneeds htenant).bind

theorem uncached_publicRsvpTransaction {input : PublicRsvpInput} {settings : Option EventSettings}
    {l : List String} {note : Option String} :
    (publicRsvpTransaction cfg ctx input settings l note).Moves Uncached := by
  refine uncached_clock.bind Uncached.trans fun now => ?_
  refine uncached_createInvitation.bind Uncached.trans fun invitee => ?_
  refine (Prog.Moves.mapM' Uncached.refl Uncached.trans fun p => ?_).bind Uncached.trans
    fun rows => ?_
  · refine uncached_clock.bind Uncached.trans fun now => ?_
    refine uncached_createInvitation.bind Uncached.trans fun created => ?_
    refine uncached_enqueue.bind Uncached.trans fun _ => ?_
    exact uncached_enqueue.bind Uncached.trans fun _ => Prog.moves_ret Uncached.refl _
  · refine uncached_enqueue.bind Uncached.trans fun _ => ?_
    refine uncached_enqueue.bind Uncached.trans fun _ => ?_
    exact uncached_enqueue.bind Uncached.trans fun _ => Prog.moves_ret Uncached.refl _

theorem createFromPublicRsvp_vain {input : PublicRsvpInput}
    (h : hasValidPhoneNumber input.phoneNumbers = true →
      input.plusOnes.forM validatePlusOne = .ok () → ctx.tenantId = none) :
    Vain (createFromPublicRsvp cfg ctx input locale) w w := by
  unfold createFromPublicRsvp
  simp only [liftM_eq]
  cases hphone : hasValidPhoneNumber input.phoneNumbers with
  | false => exact vain_error (.refl w)
  | true =>
    cases hplus : input.plusOnes.forM validatePlusOne with
    | error e => exact vain_error (.refl w)
    | ok _ =>
      have htenant := h hphone hplus
      rw [if_neg (by simp), Prog.ok_bind]
      refine vain_after (.refl w) (Block.looks_call fun _ => rfl) fun t ht =>
        ends_findSettings.2 fun hu => ?_
      refine (vain_transaction hu uncached_publicRsvpTransaction fun t _ => ?_).bind
      unfold publicRsvpTransaction
      refine Prog.ends_bind.2 <| (Prog.ends_true _).mono fun now t _ => ?_
      refine Prog.ends_bind.2 <| (Prog.ends_true _).mono fun invitee t _ => ?_
      refine Prog.ends_bind.2 <| (Prog.ends_true _).mono fun rows t _ => ?_
      exact Prog.ends_bind.2 <| ends_enqueue_tenantless htenant

theorem refuses_createPlusOneTransaction {input : CreatePlusOneInput} {e : EventId} {p : Nat}
    {user : UserId} (hids : createPlusOneIds input = .ok (e, p))
    (hnames : validateNames input.firstName input.lastName input.plusOneAgeCategory
      input.phoneNumbers = .ok ()) (h : ∀ r, ¬ Admits cfg input user w p r) :
    (createPlusOneTransaction cfg ctx input e p user locale).Refuses w := by
  refine Prog.refuses_bind looks_ensureExists (ends_ensureExists.2 fun r hr => ?_)
  split
  · exact Prog.refuses_error
  · rename_i he
    obtain rfl : r.eventId = e := by simpa using he
    refine Prog.refuses_bind looks_ensureUserCanManage
      (ends_ensureUserCanManage.2 fun r' hr' staff hstaff => ?_)
    obtain rfl : r' = r := Option.some.inj (hr'.symm.trans hr)
    split
    · exact Prog.refuses_error
    · rename_i hcontact
      have hcap : ¬ 0 < r'.maxInvitees := fun hcap => h r' ⟨hids, hnames, hr, ⟨staff, hstaff, by
        rintro rfl
        simpa [or_iff_not_imp_left] using hcontact⟩, hcap⟩
      have hzero : (w.row p).any (fun r => r.eventId = r'.eventId &&
        0 < r.maxInvitees) = false := by
        rw [hr]
        simpa using hcap
      refine Prog.post_bind.2 (Block.post_call.2 ⟨⟨⟨_, rfl⟩, rfl⟩, ?_⟩)
      rw [hzero]
      exact Prog.refuses_error

theorem createPlusOne_vain {input : CreatePlusOneInput} {user : UserId}
    (h : ∀ p r, ¬ Admits cfg input user w p r) :
    Vain (createPlusOne cfg ctx input user locale) w w := by
  unfold createPlusOne
  cases hids : createPlusOneIds input with
  | error e => exact vain_error (.refl w)
  | ok x =>
    cases hnames : validateNames input.firstName input.lastName input.plusOneAgeCategory
        input.phoneNumbers with
    | error e => exact vain_error (.refl w)
    | ok _ =>
      obtain ⟨e, p⟩ := x
      refine (vain_transaction_of_refuses (.refl w) fun t ht => ?_).bind
      refine refuses_createPlusOneTransaction hids hnames fun r hr => h p r ?_
      exact ⟨hr.ids, hr.names, by rw [World.row, ← ht.1]; exact hr.row, by
        rw [← ht.1]; exact hr.manager, hr.capacity⟩

end

end GuestWrite

/-- Whenever the call fails, the rows, the outbox and the cached contacts are as before. -/
def FailsCleanly (cfg : Config) (q : Request) (w : World) : Prop :=
  ∀ e v, Prog.Exec (ReflTransGen Lasting) (execute cfg q) w (.error e) v →
    v.db.invitations = w.db.invitations ∧ v.db.outbox = w.db.outbox ∧
      v.pendingContact = w.pendingContact

def Call.isGuestWrite : Call → Bool
  | .replyInvitation .. | .createPlusOnesInvitation .. | .createInvitationFromRsvp .. => true
  | _ => false

/-- The checks refuse the call, or it can store no fact before it caches a contact. -/
def Request.StopsShort (cfg : Config) (q : Request) (w : World) : Prop :=
  match q.call with
  | .replyInvitation input _ => ∀ r plan, w.row input.invitationId = some r →
      planReply r input = .ok plan → input.choice ≠ .yes ∧ q.context.tenantId = none
  | .createPlusOnesInvitation input user _ => ∀ p r, ¬ Admits cfg input user w p r
  | .createInvitationFromRsvp input _ => hasValidPhoneNumber input.phoneNumbers = true →
      input.plusOnes.forM validatePlusOne = .ok () → q.context.tenantId = none
  | _ => False

theorem execute_vain {q : Request} (h : q.StopsShort cfg w) : Vain (execute cfg q) w w := by
  obtain ⟨c, ctx⟩ := q
  cases c with
  | replyInvitation input locale => exact (reply_vain h).bind
  | createPlusOnesInvitation input user locale => exact (createPlusOne_vain h).bind
  | createInvitationFromRsvp input locale => exact (createFromPublicRsvp_vain h).bind
  | _ => exact h.elim

theorem execute_fails {q : Request} (hq : q.call.isGuestWrite = true) (hu : Unused w)
    (h : ¬ q.StopsShort cfg w) : (execute cfg q).MayFail (ReflTransGen Lasting) (fun v =>
      ¬ (v.db.invitations = w.db.invitations ∧ v.db.outbox = w.db.outbox ∧
        v.pendingContact = w.pendingContact)) w := by
  have hrefl : ∀ s, ReflTransGen Lasting s s := fun _ => .refl
  have hfresh : w.pendingContact w.nextToken = none := hu _ (Nat.le_refl _)
  obtain ⟨c, ctx⟩ := q
  cases c with
  | replyInvitation input locale =>
    simp only [Request.StopsShort, not_forall, not_and_or, not_not] at h
    obtain ⟨r, plan, hr, hplan, hgo⟩ := h
    have hfails : (reply cfg ctx input locale).MayFail _ _ w := reply_fails hr hplan hgo
    obtain ⟨e, v, hv, hleft⟩ := hfails
    refine .first ⟨e, v, hv, fun ⟨_, hout, hpend⟩ => hleft.elim (fun hne => hne ?_) (· hout)⟩
    rw [hpend]
    exact hfresh
  | createPlusOnesInvitation input user locale =>
    simp only [Request.StopsShort, not_forall, not_not] at h
    obtain ⟨p, r, hadm⟩ := h
    refine .first ?_
    unfold createPlusOne
    rw [hadm.ids, Prog.ok_bind]
    dsimp only
    rw [hadm.names, Prog.ok_bind]
    have hfails : (createPlusOneTransaction cfg ctx input r.eventId p user locale).MayFail _ _ w :=
      createPlusOneTransaction_fails hadm
    obtain ⟨e, v, hv, hleft⟩ := hfails
    refine .first <| mayFail_transaction hrefl ⟨e, v, hv, fun ⟨_, _, hpend⟩ => hleft ?_⟩
    exact (congrFun hpend _).trans hfresh
  | createInvitationFromRsvp input locale =>
    simp only [Request.StopsShort, not_forall] at h
    obtain ⟨hphone, hplus, ht⟩ := h
    obtain ⟨tenantId, ht⟩ := Option.ne_none_iff_exists'.1 ht
    have hfails : (createFromPublicRsvp cfg ctx input locale).MayFail _ _ w :=
      createFromPublicRsvp_fails hphone hplus ht
    obtain ⟨e, v, hv, hlt⟩ := hfails
    refine .first ⟨e, v, hv, fun ⟨hinv, _, _⟩ => ?_⟩
    rw [hinv] at hlt
    exact Nat.lt_irrefl _ hlt
  | _ => cases hq

/-- A guest's write fails cleanly just when its checks refuse it, or it needs no contact in its
transaction and has no tenant for its facts. -/
theorem fails_cleanly_iff {q : Request} (hq : q.call.isGuestWrite = true) (hw : Reachable cfg w) :
    FailsCleanly cfg q w ↔ q.StopsShort cfg w := by
  constructor
  · intro hclean
    by_contra hstops
    obtain ⟨e, v, hv, hleft⟩ := execute_fails hq (unused_of_reachable hw) hstops
    exact hleft (hclean e v hv)
  · intro hstops e v hv
    obtain ⟨-, hdb, hpend⟩ := hv.ends (execute_vain hstops) fun _ _ h => h
    exact ⟨congrArg Database.invitations hdb, congrArg Database.outbox hdb, hpend⟩

def awaiting : World := (trace plainConfig [⟨.createInvitation {
  eventId := some 7, firstName := "A", lastName := "B" } 5, { tenantId := some 1 }⟩] .empty).2

def tenantlessReply : Request := ⟨.replyInvitation { invitationId := 0, choice := .no } "en", {}⟩

theorem fails_cleanly_iff_tenantless :
    (awaiting.row 0).any (fun r => (planReply r { invitationId := 0, choice := .no }).isOk) = true ∧
    (trace plainConfig [tenantlessReply] awaiting).1.any (fun x => x.outcome.isOk) = false ∧
    FailsCleanly plainConfig tenantlessReply awaiting :=
  ⟨by decide, by decide, (fails_cleanly_iff rfl ⟨_, serial_trace _ .empty (by decide)⟩).2
    fun _ _ _ _ => ⟨by decide, rfl⟩⟩

def publicRsvp : Request where
  call := .createInvitationFromRsvp {
    eventId := 1, firstName := "Ada", lastName := "Byron"
    phoneNumbers := [{ number := "1", type := .mobile, countryCode := "49" }] } "en"
  context := { tenantId := some 1 }

/-- The rows of a public RSVP are committed, and then the cache fails. -/
theorem not_fails_cleanly : ¬ ∀ q w, q.call.isGuestWrite = true → Reachable plainConfig w →
    FailsCleanly plainConfig q w := by
  intro hall
  have hstops : ¬ publicRsvp.StopsShort plainConfig .empty := fun hstops =>
    nomatch hstops (by decide +kernel) rfl
  have hreach : Reachable plainConfig .empty := ⟨[], .start⟩
  obtain ⟨e, v, hv, hleft⟩ := execute_fails rfl (unused_of_reachable hreach) hstops
  exact hleft (hall publicRsvp .empty rfl hreach e v hv)

end InvitationService

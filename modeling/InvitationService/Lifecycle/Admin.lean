import InvitationService.Lifecycle.Confirmation

namespace InvitationService

open Resumption Query

variable {R : World → World → Prop} {cfg : Config} {ctx : Context} {c : Call} {a s : World}

namespace AdminWrite

theorem ends_approveGuard {input : ApproveInvitationDTO} {r : Invitation} {K : Unit → World → Prop}
    {w : World} (h : input.activeEventId = some r.eventId →
      (input.approve = true → r.rsvpChoice = some .yes ∧ r.status ≠ .approved) →
      (input.approve = false → r.status ≠ .rejected) → K () w) :
    (approveGuard input r).Ends K w := by
  simp only [approveGuard, Prog.ends_bind, ends_assertMatchesActiveEvent]
  intro hevent
  split
  · trivial
  · split
    · trivial
    · split
      · trivial
      · split
        · trivial
        · refine h hevent (fun ha => ?_) (fun ha => ?_)
          · simp_all
          · simp_all

theorem looks_approveGuard {input : ApproveInvitationDTO} {r : Invitation} :
    (approveGuard input r).Looks := by
  refine looks_assertMatchesActiveEvent.bind fun _ => ?_
  dsimp only
  split
  · exact Prog.looks_ret _
  · split
    · exact Prog.looks_ret _
    · split
      · exact Prog.looks_ret _
      · split <;> exact Prog.looks_ret _

theorem hush_publishMilestone {e : EventId} {m : Milestone} {o i : Nat} {actorId : Option UserId} :
    (publishMilestone cfg ctx e m o i actorId).Moves Hush := hush_send (by trivial)

def checkApproval (input : ApproveInvitationDTO) : Query Invitation := do
  let invitation ← ensureExists input.id
  approveGuard input invitation
  return invitation

def grantOnApproval (input : ApproveInvitationDTO) (invitation : Invitation) : Program Unit :=
  match invitation.guestProfileId with
  | some guest => grantGuestAccess invitation.eventId guest input.actorId
  | none => return

def afterWrite (cfg : Config) (ctx : Context) (input : ApproveInvitationDTO)
    (updated : Invitation) : Program Invitation := do
  let settings ← findSettings updated.eventId
  let now ← clock
  publishMilestone cfg ctx updated.eventId .approved (updated.approvedAt.getD now) updated.id
    (some input.actorId)
  if updated.guestProfileId.isNone then confirmApproval cfg ctx input updated settings
  return updated

def dropOnRejection (invitation : Invitation) : Program Unit :=
  match invitation.pendingContactId with
  | some token => cacheDelete token
  | none => return

section

variable {input : ApproveInvitationDTO}

theorem approve_eq (ha : input.approve = true) : approve cfg ctx input =
    perform (checkApproval input) >>= fun invitation =>
      grantOnApproval input invitation >>= fun _ =>
      perform (writeApproval input) >>= afterWrite cfg ctx input := by
  unfold approve
  simp only [liftM_eq, if_pos ha]
  refine congrArg _ (funext fun r => ?_)
  unfold grantOnApproval
  cases r.guestProfileId <;> rfl

theorem approve_eq_of_reject (ha : input.approve = false) : approve cfg ctx input =
    perform (checkApproval input) >>= fun invitation => dropOnRejection invitation >>= fun _ =>
      perform (writeRejection input) := by
  have hf : ¬ input.approve = true := by simp [ha]
  unfold approve
  simp only [liftM_eq, if_neg hf]
  refine congrArg _ (funext fun r => ?_)
  unfold dropOnRejection
  cases r.pendingContactId <;> rfl

theorem looks_checkApproval : (checkApproval input).Looks :=
  looks_ensureExists.bind fun _ => looks_approveGuard.bind fun _ => Prog.looks_ret _

theorem ends_checkApproval {K : Invitation → World → Prop} {w : World}
    (h : ∀ r, w.row input.id = some r → input.activeEventId = some r.eventId →
      (input.approve = true → r.rsvpChoice = some .yes ∧ r.status ≠ .approved) →
      (input.approve = false → r.status ≠ .rejected) → K r w) :
    (checkApproval input).Ends K w := by
  simp only [checkApproval, Prog.ends_bind, ends_ensureExists]
  exact fun r hr => ends_approveGuard fun hevent hyes hno => h r hr hevent hyes hno

theorem hush_checkApproval : (checkApproval input).Moves Hush := looks_checkApproval.moves Hush.refl

end

theorem confirmApproval_conforms (hR : Stable R cfg c a) {input : ApproveInvitationDTO}
    {r : Invitation} {settings : Option EventSettings}
    (hgive : truthy input.seatId = true → c.Gives input.id input.seatId)
    (hread : (∃ e seatId actorId locale,
        c = .job (.generateTicket input.id e seatId actorId locale)) ∨
      ∃ x, Known R (fun v => v.row input.id = some x) s ∧
        Known R (fun v => v.db.settings x.eventId = settings) s) :
    Conforms R cfg c a (confirmApproval cfg ctx input r settings) s := by
  have hsend : ∀ t, GuestConfirmation.MaySend R c input.id t → Conforms R cfg c a (do
      let _ ← GuestConfirmation.sendFirstConfirmationOrReserve cfg ctx input.id input.seatId
        (some input.actorId) input.locale
      pure ()) t := fun _ hmay =>
    (GuestConfirmation.sendFirstConfirmationOrReserve_conforms hR hgive hmay).seq fun _ _ => trivial
  unfold confirmApproval
  simp only [liftM_eq]
  refine .ite trivial (.ite trivial (Prog.Within.bind <| within_hush hR hush_clock fun t hst =>
    ends_clock.2 fun ht => ?_))
  have hnow : Known R (fun v => v.now = t.now) t := .of_now rfl
  have hread := hread.imp id fun ⟨x, hx, hset⟩ =>
    (⟨x, ht _ hx, ht _ hset⟩ : ∃ x, Known R (fun v => v.row input.id = some x) t ∧
      Known R (fun v => v.db.settings x.eventId = settings) t)
  have hmay : (∀ releaseAt, settings.bind EventSettings.releaseAt = some releaseAt →
      releaseAt ≤ t.now) → GuestConfirmation.MaySend R c input.id t := fun hle =>
    hread.imp id fun ⟨x, hx, hset⟩ => ⟨x, settings, t.now, hx, hset, hnow, hle⟩
  split
  · rename_i releaseAt hrel
    have hrel : settings.bind EventSettings.releaseAt = some releaseAt := hrel
    split
    · refine within_act fun u htu => Block.post_call.2 ⟨Hush.refl u, .ticket hgive ?_, trivial⟩
      refine hread.imp (fun hjob => ⟨Nat.le_add_right _ _, hjob⟩) fun ⟨x, hx, hset⟩ =>
        ⟨x, settings, t.now, hx u htu, hset u htu, hnow u htu, fun T hT => ?_⟩
      obtain rfl : releaseAt = T := Option.some.inj (hrel.symm.trans hT)
      exact Nat.le_refl _
    · rename_i hle
      refine hsend t (hmay fun T hT => ?_)
      obtain rfl : releaseAt = T := Option.some.inj (hrel.symm.trans hT)
      exact Nat.not_lt.1 hle
  · rename_i hrel
    have hrel : settings.bind EventSettings.releaseAt = none := hrel
    refine hsend t (hmay fun T hT => ?_)
    rw [hrel] at hT
    cases hT

theorem writeApproval_within {input : ApproveInvitationDTO} {r : Invitation}
    (hr : Known R (fun v => v.row input.id = some r) s) (hy : r.rsvpChoice = some .yes)
    (hs : r.status ≠ .approved) (hauth : Known R (Authorised c a input.id) s) :
    (perform (writeApproval input)).Within R (Action R cfg c a)
      (fun updated v => v.row input.id = some updated) s := by
  refine within_act fun t hst => ?_
  simp only [writeApproval, Prog.post_bind, post_clock, post_updateInvitation, post_note]
  refine ⟨Hush.refl t, fun r' hr' => ⟨.approve (hr t hst) hy hs (hauth t hst), ?_⟩,
    fun _ => Hush.refl t⟩
  rw [World.log_row, World.setInvitations_row, InvitationTable.patch_row_self]
  exact congrArg (Option.map _) hr'

theorem writeRejection_conforms {input : ApproveInvitationDTO} {r : Invitation}
    (hr : Known R (fun v => v.row input.id = some r) s) (hs : r.status ≠ .rejected)
    (hrej : c.Judges input.id false) :
    Conforms R cfg c a (perform (writeRejection input)) s := by
  refine within_act fun t hst => ?_
  simp only [writeRejection, Prog.post_bind, post_clock, post_updateInvitation, post_note]
  refine ⟨Hush.refl t, fun r' _ => ⟨?_, trivial⟩, fun _ => Hush.refl t⟩
  exact .step (Side.logged (Side.of_eq rfl rfl rfl rfl) (by trivial))
    (.reject hrej (hr t hst) hs) (by simp) rfl rfl rfl

theorem afterWrite_conforms (hR : Stable R cfg c a) {input : ApproveInvitationDTO}
    {updated : Invitation} (hgive : truthy input.seatId = true → c.Gives input.id input.seatId)
    (hrow : Known R (fun v => v.row input.id = some updated) s) :
    Conforms R cfg c a (afterWrite cfg ctx input updated) s := by
  unfold afterWrite
  simp only [liftM_eq]
  refine Prog.Within.bind <| within_hush hR hush_findSettings fun x _ =>
    ends_findSettings.2 fun hx => ?_
  have hset : Known R (fun v => v.db.settings updated.eventId =
    x.db.settings updated.eventId) x := .of_now rfl
  refine Prog.Within.bind <| within_hush hR hush_clock fun y _ => ends_clock.2 fun hy => ?_
  refine Prog.Within.bind <| within_hush hR hush_publishMilestone fun z _ =>
    (Prog.ends_true _).mono fun _ z' _ hz => ?_
  refine Conforms.ite (Conforms.seq (confirmApproval_conforms hR hgive ?_) ?_) trivial
  · exact .inr ⟨updated, hz _ (hy _ (hx _ hrow)), hz _ (hy _ hset)⟩
  · exact fun _ _ => trivial

theorem approve_conforms (hR : Stable R cfg c a) {input : ApproveInvitationDTO}
    (hauth : input.approve = true → Known R (Authorised c a input.id) s)
    (hgive : input.approve = true → truthy input.seatId = true → c.Gives input.id input.seatId)
    (hrej : input.approve = false → c.Judges input.id false) :
    Conforms R cfg c a (approve cfg ctx input) s := by
  cases ha : input.approve with
  | true =>
    rw [approve_eq ha]
    refine Prog.Within.bind <| within_hush hR hush_checkApproval fun t _ =>
      ends_checkApproval fun r hr _ hyes _ ht => ?_
    have hr₀ : Known R (fun v => v.row input.id = some r) t := .of_now hr
    obtain ⟨hy, hs⟩ := hyes ha
    have hgrant : (grantOnApproval input r).Within R (Action R cfg c a)
        (fun _ u => Carries R t u) t := by
      unfold grantOnApproval
      split
      · exact within_hush hR hush_grantGuestAccess fun _ _ =>
          (Prog.ends_true _).mono fun _ u _ hu => hu
      · exact fun _ h => h
    refine Prog.Within.bind <| hgrant.weaken fun _ u hu => ?_
    refine Prog.Within.bind <| (writeApproval_within (hu _ hr₀) hy hs
      (hu _ (ht _ (hauth ha)))).weaken fun updated v hv => ?_
    exact afterWrite_conforms hR (hgive ha) (.of_now hv)
  | false =>
    rw [approve_eq_of_reject ha]
    refine Prog.Within.bind <| within_hush hR hush_checkApproval fun t _ =>
      ends_checkApproval fun r hr _ _ hno ht => ?_
    have hr₀ : Known R (fun v => v.row input.id = some r) t := .of_now hr
    have hdrop : (dropOnRejection r).Within R (Action R cfg c a) (fun _ u => Carries R t u) t := by
      unfold dropOnRejection
      split
      · exact within_hush hR hush_cacheDelete fun _ _ =>
          (Prog.ends_true _).mono fun _ u _ hu => hu
      · exact fun _ h => h
    exact Prog.Within.bind <| hdrop.weaken fun _ u hu =>
      writeRejection_conforms (hu _ hr₀) (hno ha) (hrej ha)

theorem moves_create_tx {r : Invitation} {g : Invitation → AnalyticsFact} {topic : String} :
    (do
      let invitation ← createInvitation r
      enqueue ctx topic (g invitation)
      pure invitation : Query Invitation).Moves Side :=
  moves_createInvitation.bind Side.trans fun _ =>
    moves_enqueue.bind Side.trans fun _ => Prog.moves_ret Side.refl _

theorem create_conforms (hR : Stable R cfg c a) {input : InvitationCreateInput} {user : UserId}
    (hc : c = .createInvitation input user) :
    Conforms R cfg c a (create cfg ctx input (some user)) s := by
  unfold create
  cases he : input.eventId with
  | none => trivial
  | some e =>
    simp only [liftM_eq]
    split
    · trivial
    · rename_i hmax
      have hmax : 0 ≤ input.maxInvitees.getD 0 := by
        cases hm : input.maxInvitees with
        | none => simp
        | some n => simpa [hm] using hmax
      refine (conforms_hush hR hush_findSettings).seq fun settings t => ?_
      refine Conforms.seq ?_ fun created _ =>
        (conforms_hush hR hush_publishMilestone).seq fun _ _ => trivial
      refine within_tx moves_create_tx fun t _ => ?_
      simp only [Prog.ends_bind, ends_createInvitation, ends_enqueue]
      intro h tenant _ hside
      refine ⟨.step hside (.create
        (r := (createdInvitation cfg input e settings (some user)).stamped t.now) (h := h)
        ?_ fun p => ?_) rfl rfl rfl rfl, trivial⟩
      · rw [hc]
        exact ⟨e, settings, he, hmax, rfl⟩
      · simp [invitationCreated, eq_comm]

abbrev limitTransaction (input : UpdateInvitationPlusOneLimitInput) (e : Option EventId) :
    Query Invitation := do
  let invitation ← ensureExists input.id
  assertMatchesActiveEvent invitation.eventId e
  if invitation.invitedByInvitationId.isSome then
    throw (.invitationValidation "Plus-one limits can only be changed on parent invitations")
  let assignedCount ← countInvitations (·.invitedByInvitationId = some invitation.id)
  if input.maxPlusOnes < assignedCount then
    throw (.invitationValidation "maxPlusOnes cannot be less than assigned plus-ones")
  updateInvitation invitation.id { maxInvitees := some (.set (input.maxPlusOnes - assignedCount)) }

theorem moves_limitTransaction {input : UpdateInvitationPlusOneLimitInput} {e : Option EventId} :
    (limitTransaction input e).Moves Side := by
  refine (moves_side hush_ensureExists).bind Side.trans fun r => ?_
  refine (moves_side hush_assertMatchesActiveEvent).bind Side.trans fun _ => ?_
  dsimp only
  split
  · exact Prog.moves_ret Side.refl _
  · refine (moves_side hush_countInvitations).bind Side.trans fun n => ?_
    split
    · exact Prog.moves_ret Side.refl _
    · exact moves_updateInvitation

theorem ends_limitTransaction {input : UpdateInvitationPlusOneLimitInput} {e : Option EventId}
    {w : World} {K : Invitation → World → Prop}
    (h : ∀ r x, w.row input.id = some r →
      ((w.db.invitations.children input.id).card : Int) ≤ input.maxPlusOnes →
      K x (w.setInvitations (w.db.invitations.patch input.id (limitUpdate
        (input.maxPlusOnes - (w.db.invitations.children input.id).card)) w.now))) :
    (limitTransaction input e).Ends K w := by
  simp only [Prog.ends_bind, ends_ensureExists, ends_assertMatchesActiveEvent]
  intro r hr _
  split
  · trivial
  · simp only [Prog.ends_bind, ends_countInvitations]
    split
    · trivial
    · rename_i hle
      have hid : r.id = input.id := w.db.invitations.id_eq hr
      rw [ends_update, hid]
      intro r' _ _
      rw [hid, ← InvitationTable.card_children] at hle
      rw [← InvitationTable.card_children]
      exact h r _ hr (by simpa using hle)

theorem updatePlusOneLimit_conforms {input : UpdateInvitationPlusOneLimitInput}
    {e : Option EventId} (hc : c = .updateInvitationPlusOneLimit input e) :
    Conforms R cfg c a (updatePlusOneLimit input e) s :=
  .ite trivial <| within_tx moves_limitTransaction fun t _ =>
    ends_limitTransaction fun r _ hr hle hside =>
      ⟨.step hside (.limit hc hr hle) (by simp) rfl rfl rfl, trivial⟩

theorem delete_conforms (hR : Stable R cfg c a) {i : Nat} {e : Option EventId}
    (hc : c = .removeInvitation i e) : Conforms R cfg c a (delete i e) s := by
  unfold delete
  simp only [liftM_eq]
  refine (conforms_hush hR (hush_ensureExists.bind Hush.trans fun r =>
    hush_assertMatchesActiveEvent)).seq fun _ t => ?_
  refine Conforms.seq ?_ fun _ _ => trivial
  refine within_act fun u _ => post_deleteInvitation.2 ⟨Hush.refl u, fun r _ => ?_, fun _ =>
    Hush.refl u⟩
  exact ⟨.step (Side.of_eq rfl rfl rfl rfl) (.remove (by rw [hc]; trivial)) (by simp) rfl rfl rfl,
    trivial⟩

theorem moves_deleteMany {ids : List Nat} {e : Option EventId} :
    (ids.forM fun id => do
      let invitation ← ensureExists id
      assertMatchesActiveEvent invitation.eventId e
      let _ ← deleteInvitation id : Query Unit).Moves Side :=
  Prog.Moves.forM Side.refl Side.trans fun _ =>
    (moves_side hush_ensureExists).bind Side.trans fun _ =>
      (moves_side hush_assertMatchesActiveEvent).bind Side.trans fun _ =>
        moves_deleteInvitation.bind Side.trans fun _ => Prog.moves_ret Side.refl _

theorem ends_deleteMany {ids : List Nat} {e : Option EventId} {w : World}
    {K : Unit → World → Prop}
    (h : ∀ t, RemoveAll w.db.invitations ids t → K () (w.setInvitations t)) :
    (ids.forM fun id => do
      let invitation ← ensureExists id
      assertMatchesActiveEvent invitation.eventId e
      let _ ← deleteInvitation id : Query Unit).Ends K w := by
  induction ids generalizing w with
  | nil => exact h _ .nil
  | cons i ids ih =>
    simp only [Prog.forM_cons, Prog.ends_bind, ends_ensureExists, ends_assertMatchesActiveEvent,
      ends_deleteInvitation]
    intro r hr _ r' _
    exact ih fun t ht => h t (.cons (by rw [show w.db.invitations.row i = some r from hr]; rfl) ht)

theorem deleteMany_conforms {ids : List Nat} {e : Option EventId}
    (hc : c = .removeInvitations ids e) : Conforms R cfg c a (deleteMany ids e) s := by
  unfold deleteMany
  refine .ite trivial (within_tx moves_deleteMany fun t _ => ends_deleteMany fun u hu hside => ?_)
  exact ⟨.step hside (.removeMany hc hu) (by simp) rfl rfl rfl, trivial⟩

theorem bulkApprove_conforms (hR : Stable R cfg c a) {items : List ApproveInvitationDataInput}
    {approved : Bool} {user : UserId} {e : Option EventId}
    (hc : c = .bulkApproveInvitations items approved user e) :
    Conforms R cfg c a (bulkApprove cfg ctx items approved user e) s := by
  refine conforms_forM fun item hitem t => ?_
  refine (approve_conforms hR (fun ha => ?_) (fun ha _ => ?_) fun ha => ?_).seq fun _ _ => trivial
  · exact .of_always fun _ => .inl (by rw [hc]; exact ⟨ha, item, hitem, rfl⟩)
  · rw [hc]; exact ⟨ha, item, hitem, rfl, rfl⟩
  · rw [hc]; exact ⟨ha, item, hitem, rfl⟩

theorem ends_stageGuard {staged : Bool} {e : Option EventId} {r : Invitation} {w : World}
    {K : Unit → World → Prop}
    (h : (if staged then canStage r = true else canUnstage r = true) → K () w) :
    (stageGuard staged e r).Ends K w := by
  simp only [stageGuard, Prog.ends_bind, ends_assertMatchesActiveEvent]
  intro _
  split
  · trivial
  · refine h ?_
    cases staged <;> simp_all

theorem hush_stageGuard {staged : Bool} {e : Option EventId} {r : Invitation} :
    (stageGuard staged e r).Moves Hush := by
  refine hush_assertMatchesActiveEvent.bind Hush.trans fun _ => ?_
  split <;> exact hush_ret _

theorem ends_stageGuards {staged : Bool} {e : Option EventId} {rs : List Invitation} {w : World}
    {K : PUnit → World → Prop}
    (h : (∀ r ∈ rs, if staged then canStage r = true else canUnstage r = true) → K () w) :
    (rs.forM (stageGuard staged e)).Ends K w := by
  induction rs with
  | nil => exact h (by simp)
  | cons r rs ih =>
    rw [Prog.forM_cons, Prog.ends_bind]
    refine ends_stageGuard fun hr => ih fun hrs => h fun x hx => ?_
    rcases List.mem_cons.1 hx with rfl | hx
    · exact hr
    · exact hrs x hx

theorem moves_stageAll {staged : Bool} {rs : List Invitation} :
    (rs.forM fun r => do
      let _ ← updateInvitation r.id { status := some (stagedStatus staged r) } :
      Query Unit).Moves Side :=
  Prog.Moves.forM Side.refl Side.trans fun _ =>
    moves_updateInvitation.bind Side.trans fun _ => Prog.moves_ret Side.refl _

theorem ends_stageAll {staged : Bool} {rs : List Invitation} {w : World}
    {K : PUnit → World → Prop}
    (h : ∀ t, (∀ r ∈ rs, (w.row r.id).isSome) → StageAll staged w.now w.db.invitations rs t →
      K () (w.setInvitations t)) :
    (rs.forM fun r => do
      let _ ← updateInvitation r.id { status := some (stagedStatus staged r) } :
      Query Unit).Ends K w := by
  induction rs generalizing w with
  | nil => exact h _ (by simp) .nil
  | cons r rs ih =>
    simp only [Prog.forM_cons, Prog.ends_bind, ends_updateInvitation]
    intro _ hr
    refine ih fun t hrs ht => h t (List.forall_mem_cons.2 ⟨by simp [hr], fun x hx => ?_⟩) (.cons ht)
    exact (InvitationTable.isSome_patch_row _ _ _ _ x.id).symm.trans (hrs x hx)

abbrev readStaged (ids : List Nat) (staged : Bool) (e : Option EventId) :
    Query (List Invitation) := do
  let invitations ← findManyInvitations (·.id ∈ ids)
  if invitations.length ≠ ids.eraseDups.length then
    throw (.invitationValidation "One or more invitations do not exist")
  invitations.forM (stageGuard staged e)
  return invitations

theorem hush_readStaged {ids : List Nat} {staged : Bool} {e : Option EventId} :
    (readStaged ids staged e).Moves Hush := by
  refine hush_findManyInvitations.bind Hush.trans fun rs => ?_
  split
  · exact hush_ret _
  · exact (Prog.Moves.forM Hush.refl Hush.trans fun _ => hush_stageGuard).bind Hush.trans
      fun _ => hush_ret _

theorem ends_readStaged {ids : List Nat} {staged : Bool} {e : Option EventId} {w : World}
    {K : List Invitation → World → Prop}
    (h : (∀ r ∈ w.db.invitations.select (·.id ∈ ids),
        if staged then canStage r = true else canUnstage r = true) →
      K (w.db.invitations.select (·.id ∈ ids)) w) :
    (readStaged ids staged e).Ends K w := by
  simp only [Prog.ends_bind, ends_findManyInvitations]
  split
  · trivial
  · simp only [Prog.ends_bind]
    exact ends_stageGuards h

theorem bulkStage_conforms (hR : Stable R cfg c a) {ids : List Nat} {staged : Bool}
    {e : Option EventId} (hc : c = .bulkStageInvitations ids staged e) :
    Conforms R cfg c a (bulkStage ids staged e) s := by
  unfold bulkStage
  simp only [liftM_eq]
  refine Prog.Within.bind <| within_hush hR hush_readStaged fun t _ =>
    ends_readStaged fun hrs _ => ?_
  refine within_tx moves_stageAll fun u hu => ends_stageAll fun v _ hv hside => ?_
  refine ⟨.step hside (.stage hc ?_ (fun r hr => ⟨?_, hrs r hr⟩) hv) (by simp) rfl rfl rfl,
    trivial⟩
  · rw [InvitationTable.select_ids]
    exact InvitationTable.nodup_ids _ _
  · exact Known.of_now (P := fun v => v.row r.id = some r)
      (InvitationTable.mem_select.1 hr).1 u hu

theorem resendGuestConfirmations_conforms (hR : Stable R cfg c a) (hc : c.Resends) {ids : List Nat}
    {locale : Option Locale} {user : UserId} {e : Option EventId} :
    Conforms R cfg c a (resendGuestConfirmations cfg ctx ids locale user e) s := by
  refine conforms_forM fun i _ t => ?_
  simp only [liftM_eq]
  exact (conforms_hush hR (hush_ensureExists.bind Hush.trans fun r =>
    hush_assertMatchesActiveEvent)).seq fun _ t =>
      (GuestConfirmation.resendConfirmation_conforms hR hc).seq fun _ _ => trivial

theorem importRow_conforms {e : EventId} {key uploadType : String} {sheet : Option Sheet}
    {user : UserId} (hc : c = .importInvitations e key uploadType sheet user)
    {firstName lastName : String} {cell : Option Cell} :
    Conforms R cfg c a (importRow ctx e user firstName lastName cell) s := by
  unfold importRow
  split
  · exact within_tx (Prog.moves_ret Side.refl _) fun _ _ => trivial
  · dsimp only
    split
    · refine within_tx (moves_createInvitation.bind Side.trans fun _ => moves_enqueue) fun t _ => ?_
      simp only [Prog.ends_bind, ends_createInvitation, ends_enqueue]
      intro h tenant _ hside
      refine ⟨.step hside (.create (r := (importedInvitation e user firstName lastName
        _).stamped t.now) (h := h) ?_ fun p => ?_) rfl rfl rfl rfl, trivial⟩
      · rw [hc]
        exact ⟨firstName, lastName, _, rfl⟩
      · simp [invitationCreated, eq_comm]
    · exact within_tx (Prog.moves_ret Side.refl _) fun _ _ => trivial

theorem importRows_conforms {e : EventId} {key uploadType : String} {sheet : Option Sheet}
    {user : UserId} (hc : c = .importInvitations e key uploadType sheet user)
    (rows : List (CanonicalField → Option Cell)) (existingSet : List String) :
    Conforms R cfg c a (importRows ctx e user rows existingSet) s := by
  induction rows generalizing existingSet s with
  | nil => trivial
  | cons row rows ih =>
    unfold importRows
    refine .ite ((ih _).seq fun _ _ => trivial) ?_
    exact (importRow_conforms hc).seq fun _ t => (ih _).seq fun _ _ => trivial

theorem importInvitations_conforms (hR : Stable R cfg c a) {e : EventId}
    {key uploadType : String} {sheet : Option Sheet} {user : UserId}
    (hc : c = .importInvitations e key uploadType sheet user) :
    Conforms R cfg c a (importInvitations cfg ctx e uploadType sheet user) s := by
  unfold importInvitations
  simp only [liftM_eq]
  refine (conforms_hush hR (hush_call Hush.refl)).seq fun _ t => ?_
  refine (conforms_hush hR ?_).seq fun sheet t => ?_
  · unfold readSheet
    split
    · exact hush_ret _
    · split
      · split <;> exact hush_ret _
      · exact hush_ret _
  · refine .ite trivial ?_
    exact (conforms_hush hR hush_findManyInvitations).seq fun _ t =>
      (importRows_conforms hc _ _).seq fun _ _ => trivial

end AdminWrite
end InvitationService

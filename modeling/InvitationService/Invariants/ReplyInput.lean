import InvitationService.Lib.Agreement
import InvitationService.Failure.GuestWrite

namespace InvitationService

open Resumption Query InvitationTable

variable {cfg : Config} {ctx : Context} {r : Invitation} {i : Nat} {w : World} {locale : Locale}
  {choice : RsvpChoice} {x y : Option AcceptRSVPInput}

/-- Two replies ask for the same, the row standing in for what they leave out. -/
structure SameDetails (cfg : Config) (r : Invitation) (x y : Option AcceptRSVPInput) : Prop where
  firstName : (x.map (·.firstName)).getD r.firstName = (y.map (·.firstName)).getD r.firstName
  lastName : (x.map (·.lastName)).getD r.lastName = (y.map (·.lastName)).getD r.lastName
  phoneNumber : (x.bind (fun a => cfg.getPrimaryPhoneNumber a.phoneNumbers) <|> r.phoneNumber) =
    (y.bind (fun a => cfg.getPrimaryPhoneNumber a.phoneNumbers) <|> r.phoneNumber)
  email : (x.bind (·.email) <|> r.email) = (y.bind (·.email) <|> r.email)
  guestNote : normalizeOptionalText (x.bind (·.guestNote)) =
    normalizeOptionalText (y.bind (·.guestNote))
  selectedInvitedBy : (x.bind (·.selectedInvitedBy)).getD r.selectedInvitedBy =
    (y.bind (·.selectedInvitedBy)).getD r.selectedInvitedBy
  truncated : r.maxInvitees < (((x.map (·.plusOnes)).getD []).length : Int) ↔
    r.maxInvitees < (((y.map (·.plusOnes)).getD []).length : Int)

def ReplyRefused (ctx : Context) (i : Nat) (w : World) : Prop :=
  ctx.tenantId = none ∨ ∀ r, w.row i = some r → r.rsvpChoice = some .yes ∨ r.rsvpChoice = some .no

namespace GuestWrite

theorem replyUpdate_congr {plan : ReplyPlan} {now : Nat} (h : SameDetails cfg r x y) :
    replyUpdate cfg r plan now x = replyUpdate cfg r plan now y := by
  simp only [replyUpdate, h.firstName, h.lastName, h.phoneNumber, h.email, h.guestNote,
    h.selectedInvitedBy]

theorem planReply_decided (h : r.rsvpChoice = some .yes ∨ r.rsvpChoice = some .no)
    (input : RSVPInput) :
    planReply r input = .error (.rsvpAlreadyAccepted (some input.invitationId)) := by
  rw [planReply, if_pos (by simpa using h)]
  rfl

theorem planReply_undecided (hno : choice ≠ .yes)
    (h : ¬ (r.rsvpChoice = some .yes ∨ r.rsvpChoice = some .no)) :
    ∃ plan : ReplyPlan, plan.decision.needsContactDetails = false ∧ plan.allowedPlusOnes = [] ∧
      plan.decision.newChoice = choice ∧ ∀ x, planReply r ⟨i, choice, x⟩ = .ok plan := by
  have hif : ¬ (decide (r.rsvpChoice = some .yes) || decide (r.rsvpChoice = some .no)) = true := by
    simpa using h
  have hu := not_or.1 h
  cases choice with
  | yes => exact absurd rfl hno
  | no =>
    refine ⟨⟨⟨.no, .declined, false⟩, .declined, []⟩, rfl, rfl, rfl, fun x => ?_⟩
    rw [planReply, if_neg hif, decide_undecided hu]
    simp [bind, Except.bind, pure, Except.pure]
  | maybe =>
    refine ⟨⟨⟨.maybe, .pending, false⟩, .pending, []⟩, rfl, rfl, rfl, fun x => ?_⟩
    rw [planReply, if_neg hif, decide_undecided hu]
    simp [bind, Except.bind, pure, Except.pure]

variable {plan : ReplyPlan} {now : Nat} {input : RSVPInput}

theorem replyTransaction_eq (hneeds : plan.decision.needsContactDetails = false)
    (hnone : plan.allowedPlusOnes = []) :
    replyTransaction cfg ctx r plan now input locale =
      (updateInvitation input.invitationId (replyUpdate cfg r plan now input.replyInput) >>=
        fun updated => enqueueReply ctx updated r.rsvpChoice.isSome plan.decision.newChoice 0 >>=
          fun _ => .ret (.ok (updated, []))) := by
  unfold replyTransaction
  rw [hnone, hneeds]
  rfl

theorem enqueueReply_untenanted {isUpdate : Bool} {n : Nat} (ht : ctx.tenantId = none) :
    enqueueReply ctx r isUpdate choice n = .ret (.error .tenantContextRequired) := by
  unfold enqueueReply enqueue
  rw [ht]
  rfl

theorem run_update_error {d d' : InvitationUpdate} {e : Exception} (hr : w.row i = some r)
    (hd : d.maxInvitees = none) (hd' : d'.maxInvitees = none) (c : Nat → Bool) : ∃ o t t',
      (updateInvitation i d >>= fun _ =>
        (.ret (.error e) : Query (Invitation × List Invitation))).run
        c w = (.error o, t) ∧
      (updateInvitation i d' >>= fun _ =>
        (.ret (.error e) : Query (Invitation × List Invitation))).run
        c w = (.error o, t') ∧ w.rollback t = w.rollback t' := by
  cases hc : c 0 with
  | true =>
    refine ⟨.dependency .database, w, w, ?_, ?_, rfl⟩ <;>
      simp [updateInvitation, Block.call, Prog.run, hc]
  | false =>
    refine ⟨e, w.setInvitations (w.db.invitations.patch i d w.now),
      w.setInvitations (w.db.invitations.patch i d' w.now), ?_, ?_, rfl⟩ <;>
      simp [updateInvitation, Block.call, Prog.run, hc, hr, d.fits_of_none r hd,
        d'.fits_of_none r hd']

/-- Replies other than YES agree where they are turned down, and where they ask for the same. -/
theorem reply_agree (hno : choice ≠ .yes)
    (h : ReplyRefused ctx i w ∨ ∀ r, w.row i = some r → SameDetails cfg r x y) :
    (reply cfg ctx ⟨i, choice, x⟩ locale).Agree (reply cfg ctx ⟨i, choice, y⟩ locale) w := by
  unfold reply
  simp only [liftM_eq]
  refine agree_perform (ends_ensureExists.2 fun r hr => agree_perform (ends_findSettings.2 ?_))
  by_cases hd : r.rsvpChoice = some .yes ∨ r.rsvpChoice = some .no
  · rw [planReply_decided hd, planReply_decided hd]
    exact .refl _
  obtain ⟨plan, hneeds, hnone, -, hplan⟩ := @planReply_undecided r i choice hno hd
  rw [hplan x, hplan y, Prog.ok_bind, Prog.ok_bind]
  refine agree_perform (ends_clock.2 ?_)
  rw [replyTransaction_eq hneeds hnone, replyTransaction_eq hneeds hnone]
  rcases h with (ht | hdec) | hsame
  · simp only [enqueueReply_untenanted ht, Prog.error_bind]
    exact agree_transaction (run_update_error hr rfl rfl)
  · exact absurd (hdec r hr) hd
  · have hs := hsame r hr
    simp only [replyUpdate_congr hs, hs.selectedInvitedBy, hs.truncated]
    exact .refl _

theorem reply_returns (hno : choice ≠ .yes) {tenantId : TenantId}
    (ht : ctx.tenantId = some tenantId)
    (hr : w.row i = some r) (hd : ¬ (r.rsvpChoice = some .yes ∨ r.rsvpChoice = some .no)) :
    ∃ plan : ReplyPlan, ∀ x,
      ((reply cfg ctx ⟨i, choice, x⟩ locale).solo (fun _ => false) w).1 =
        .ok ((replyUpdate cfg r plan w.now x).apply w.now r,
          decide (r.maxInvitees < (((x.map (·.plusOnes)).getD []).length : Int))) := by
  obtain ⟨plan, hneeds, hnone, hnew, hplan⟩ := @planReply_undecided r i choice hno hd
  refine ⟨plan, fun x => ?_⟩
  have hblock : (replyTransaction cfg ctx r plan w.now ⟨i, choice, x⟩ locale).Succeeds false
      (fun a _ => a = ((replyUpdate cfg r plan w.now x).apply w.now r, [])) w := by
    rw [replyTransaction_eq hneeds hnone]
    exact .step (solo_updateInvitation hr rfl) <| .bind <|
      (enqueueReply_succeeds ht).mono fun _ _ _ => Prog.succeeds_of rfl rfl
  obtain ⟨_, v, hv, rfl⟩ := hblock
  have htx : (Query.transaction (replyTransaction cfg ctx r plan w.now ⟨i, choice, x⟩ locale)).solo
      (fun _ => false) w = (.ok ((replyUpdate cfg r plan w.now x).apply w.now r, []), v) := by
    rw [Query.transaction, solo_transaction, hv]
  unfold reply publishSeatingInfoUpdated
  simp only [liftM_eq]
  rw [Prog.solo_bind_ok (solo_perform.trans (solo_ensureExists hr)),
    Prog.solo_bind_ok (solo_perform.trans solo_findSettings), hplan x, Prog.ok_bind,
    Prog.solo_bind_ok (solo_perform.trans solo_clock), Prog.solo_bind_ok htx]
  dsimp only
  rw [Prog.forM_cons, Prog.bind_assoc, Prog.solo_bind_ok (solo_perform.trans solo_send)]
  rw [hnew, if_neg (by simp [hno])]
  rfl

end GuestWrite

/-- What two replies to row `i` leave behind and return is the same. -/
structure SameReply (i : Nat) (a b : Except Exception (Invitation × Bool) × World) : Prop where
  payload : a.1 = b.1
  row : a.2.row i = b.2.row i
  children : a.2.db.invitations.select (fun r => r.invitedByInvitationId = some i) =
    b.2.db.invitations.select (fun r => r.invitedByInvitationId = some i)
  pendingContact : a.2.pendingContact = b.2.pendingContact
  journal : a.2.journal = b.2.journal

/-- Whatever fails on the way, it makes no difference to the reply which of the two it carries. -/
def RepliesAlike (cfg : Config) (ctx : Context) (i : Nat) (choice : RsvpChoice)
    (x y : Option AcceptRSVPInput) (locale : Locale) (w : World) : Prop :=
  ∀ c, SameReply i ((GuestWrite.reply cfg ctx ⟨i, choice, x⟩ locale).run c w)
    ((GuestWrite.reply cfg ctx ⟨i, choice, y⟩ locale).run c w)

theorem repliesAlike_of_agree (h : (GuestWrite.reply cfg ctx ⟨i, choice, x⟩ locale).Agree
    (GuestWrite.reply cfg ctx ⟨i, choice, y⟩ locale) w) :
    RepliesAlike cfg ctx i choice x y locale w := by
  intro c
  rw [h c]
  exact ⟨rfl, rfl, rfl, rfl, rfl⟩

theorem RepliesAlike.sameDetails (h : RepliesAlike cfg ctx i choice x y locale w)
    (hno : choice ≠ .yes) {tenantId : TenantId} (ht : ctx.tenantId = some tenantId)
    (hr : w.row i = some r) (hd : ¬ (r.rsvpChoice = some .yes ∨ r.rsvpChoice = some .no)) :
    SameDetails cfg r x y := by
  obtain ⟨plan, hplan⟩ := @GuestWrite.reply_returns cfg ctx r i w locale choice hno _ ht hr hd
  have hpay := (hplan x).symm.trans ((h fun _ _ => false).payload.trans (hplan y))
  obtain ⟨hrow, htrunc⟩ := Prod.mk.inj (Except.ok.inj hpay)
  exact {
    firstName := congrArg Invitation.firstName hrow
    lastName := congrArg Invitation.lastName hrow
    phoneNumber := congrArg Invitation.phoneNumber hrow
    email := congrArg Invitation.email hrow
    guestNote := congrArg Invitation.guestNote hrow
    selectedInvitedBy := congrArg Invitation.selectedInvitedBy hrow
    truncated := decide_eq_decide.1 htrunc }

/-- A reply other than YES ignores the details it carries just when it is turned down, or they are
the same. -/
theorem replies_alike_iff (hno : choice ≠ .yes) : RepliesAlike cfg ctx i choice x y locale w ↔
    ReplyRefused ctx i w ∨ ∀ r, w.row i = some r → SameDetails cfg r x y := by
  constructor
  · intro h
    refine or_iff_not_imp_left.2 fun hgo r hr => ?_
    obtain ⟨ht, hd⟩ := not_or.1 hgo
    obtain ⟨tenantId, ht⟩ := Option.ne_none_iff_exists'.1 ht
    refine h.sameDetails hno ht hr fun hdec => hd fun r' hr' => ?_
    rwa [← Option.some.inj (hr.symm.trans hr')]
  · exact fun h => repliesAlike_of_agree (GuestWrite.reply_agree hno h)

def echoedInput : AcceptRSVPInput := { firstName := "A", lastName := "B", phoneNumbers := [] }

theorem replies_alike_echoed :
    RepliesAlike plainConfig { tenantId := some 1 } 0 .maybe none (some echoedInput) "en-US"
      (openedWorld 1) := by
  have hrow : ((openedWorld 1).row 0).all (fun r => r.firstName = "A" && r.lastName = "B" &&
      r.maxInvitees = 1) = true := by decide
  refine (replies_alike_iff (by decide)).2 (.inr fun r hr => ?_)
  rw [hr] at hrow
  simp only [Option.all_some, Bool.and_eq_true, decide_eq_true_eq] at hrow
  obtain ⟨⟨hfirst, hlast⟩, hmax⟩ := hrow
  exact {
    firstName := hfirst
    lastName := hlast
    phoneNumber := rfl
    email := rfl
    guestNote := rfl
    selectedInvitedBy := rfl
    truncated := by rw [hmax]; decide }

/-- Whoever declines in another name renames the invitation. -/
theorem not_replies_alike : ¬ ∀ i choice x y w, choice ≠ .yes →
    RepliesAlike plainConfig { tenantId := some 1 } i choice x y "en-US" w := by
  intro hall
  have hrow : ((openedWorld 1).row 0).any (fun r => r.firstName = "A" &&
    r.rsvpChoice.isNone) = true :=
    by decide
  obtain ⟨r, hr, hok⟩ := (Option.any_eq_true _ _).1 hrow
  simp only [Bool.and_eq_true, decide_eq_true_eq, Option.isNone_iff_eq_none] at hok
  have hd : ¬ (r.rsvpChoice = some .yes ∨ r.rsvpChoice = some .no) := by simp [hok.2]
  have hsame := (hall 0 .no none (some { echoedInput with firstName := "Eve" }) (openedWorld 1)
    (by decide)).sameDetails (by decide) rfl hr hd
  have hname := hsame.firstName
  rw [show _ = r.firstName from rfl, hok.1] at hname
  exact absurd hname (by decide)

end InvitationService

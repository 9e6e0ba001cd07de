import InvitationService.Invariants.Capacity
import InvitationService.Lifecycle.Alone

open Relation (ReflTransGen)

namespace InvitationService

open Resumption Query

/-- The exceptions of `approve` itself: its checks, the grant, and the late checks. -/
def Exception.OfApproval : Exception → Prop
  | .invitationValidation _ | .rsvpNotSubmitted _ | .rsvpNotAccepted _
  | .invitationAlreadyApproved _ | .eventAccessGrant .. | .missingGuestName ..
  | .missingPendingContact _ => True
  | _ => False

variable {cfg : Config} {ctx : Context} {i : Nat}

abbrev Plain {ι α : Type} (p : Prog ι World Exception α) : Prop := p.Spares Exception.OfApproval

theorem plain_call {α : Type} {d : Dependency} {f : World → Except Exception α × World}
    (hf : ∀ w e, (f w).1 = .error e → ¬ e.OfApproval) :
    Plain (perform (Block.call (.dependency d) f)) := spares_perform (Block.spares_call id hf)

theorem plain_findInvitation : Plain (perform (findInvitation i)) := plain_call fun _ _ => nofun

theorem plain_findSettings {e : EventId} : Plain (perform (findSettings e)) :=
  plain_call fun _ _ => nofun

theorem plain_clock : Plain (perform clock) := fun _ _ => trivial

theorem plain_send {m : Message} {a : Option UserId} : Plain (perform (send cfg ctx m a)) :=
  plain_call fun _ _ => nofun

theorem plain_schedule {j : Job} {n : Nat} : Plain (perform (schedule j n)) :=
  plain_call fun _ _ => nofun

theorem spares_updateInvitation {d : InvitationUpdate} : Plain (updateInvitation i d) :=
  Block.spares_call id fun w e he => by
    cases hr : w.row i with
    | some r =>
      simp only [hr] at he
      split at he
      · cases he
      · simp only [Except.error.injEq] at he
        subst he
        exact id
    | none =>
      simp only [hr, Except.error.injEq] at he
      subst he
      exact id

namespace GuestConfirmation

variable {actorId : Option UserId} {seatId : Option SeatId} {locale : Option Locale}

theorem scheduleReminders_plain : Plain (scheduleReminders cfg i actorId) := by
  unfold scheduleReminders settingsOf
  simp only [liftM_eq]
  refine plain_findInvitation.bind fun o => Prog.Spares.bind ?_ fun settings => ?_
  · cases o with
    | some r => exact plain_findSettings
    | none => trivial
  · refine plain_clock.bind fun now => ?_
    split
    · exact .forM fun _ => plain_schedule
    · exact .ite trivial plain_schedule

theorem sendFirstConfirmation_plain : Plain
    (sendFirstConfirmation cfg ctx i seatId actorId locale) := by
  unfold sendFirstConfirmation
  simp only [liftM_eq]
  refine plain_findInvitation.bind fun o => ?_
  cases o with
  | none => trivial
  | some r =>
    refine .ite trivial (.ite trivial (.ite trivial (Prog.Spares.bind ?_ fun o => ?_)))
    · unfold resolvePendingContactPayload
      split
      · trivial
      · trivial
      · exact plain_call fun _ _ => nofun
    · cases o with
      | none => trivial
      | some stored =>
        refine Prog.Spares.bind (plain_call fun _ _ => nofun) fun token => ?_
        refine Prog.Spares.bind (spares_perform ?_) fun _ => ?_
        · exact Prog.Spares.bind (fun _ _ => trivial) fun now =>
            spares_updateInvitation.bind fun _ => trivial
        · refine Prog.Spares.bind (spares_perform ?_) fun _ => ?_
          · exact Prog.Spares.bind (fun _ _ => trivial) fun now =>
              Block.spares_call id fun _ _ => nofun
          · exact scheduleReminders_plain.bind fun _ => trivial

theorem requestSeatReservation_plain : Plain (requestSeatReservation cfg ctx i actorId) := by
  unfold requestSeatReservation
  simp only [liftM_eq]
  refine plain_findInvitation.bind fun o => ?_
  cases o with
  | none => trivial
  | some r => exact .ite trivial (.ite trivial (plain_send.bind fun _ => trivial))

theorem sendFirstConfirmationOrReserve_plain :
    Plain (sendFirstConfirmationOrReserve cfg ctx i seatId actorId locale) :=
  .ite sendFirstConfirmation_plain requestSeatReservation_plain

end GuestConfirmation
/-- The approval is refused only after it has been written: the checks pass, and the guest, who
has no account, has no full name or no pending contact. -/
def LateRefusal (input : ApproveInvitationDTO) (w : World) : Prop :=
  ∃ r, w.row input.id = some r ∧ input.activeEventId = some r.eventId ∧ r.rsvpChoice = some .yes ∧
    r.status ≠ .approved ∧ r.guestProfileId = none ∧
    (r.firstName = "" ∨ r.lastName = "" ∨ r.pendingContactId = none)

namespace AdminWrite

variable {input : ApproveInvitationDTO} {r : Invitation} {w : World}

def Same (s t : World) : Prop := t.db = s.db ∧ t.journal = s.journal

theorem Same.of_environments {s t : World} (h : ReflTransGen World.Environment s t) : Same s t :=
  ⟨environments_db h, environments_journal h⟩

theorem confirmApproval_plain {settings : Option EventSettings}
    (hname : r.firstName ≠ "" ∧ r.lastName ≠ "") (hcontact : r.pendingContactId ≠ none) :
    Plain (confirmApproval cfg ctx input r settings) := by
  have hsend : Plain (do
      let _ ← GuestConfirmation.sendFirstConfirmationOrReserve cfg ctx input.id input.seatId
        (some input.actorId) input.locale
      pure () : Program Unit) :=
    GuestConfirmation.sendFirstConfirmationOrReserve_plain.bind fun _ => trivial
  unfold confirmApproval
  simp only [liftM_eq]
  rw [if_neg (by simp [hname]), if_neg (by simpa using hcontact)]
  refine plain_clock.bind fun now => ?_
  split
  · exact .ite plain_schedule hsend
  · exact hsend

theorem afterApproval_plain (h : r.guestProfileId = none →
    (r.firstName ≠ "" ∧ r.lastName ≠ "") ∧ r.pendingContactId ≠ none) :
    Plain (afterWrite cfg ctx input r) := by
  unfold afterWrite
  simp only [liftM_eq]
  refine plain_findSettings.bind fun settings => plain_clock.bind fun now => ?_
  refine Prog.Spares.bind plain_send fun _ => ?_
  split
  · rename_i hg
    obtain ⟨hname, hcontact⟩ := h (Option.isNone_iff_eq_none.1 hg)
    exact (confirmApproval_plain hname hcontact).bind fun _ => trivial
  · trivial

theorem approve_writes (hr : w.row input.id = some r) (hlate : r.guestProfileId = none →
    (r.firstName ≠ "" ∧ r.lastName ≠ "") ∧ r.pendingContactId ≠ none) :
    (perform (writeApproval input) >>= afterWrite cfg ctx input).Guarantees Same (fun _ _ => True)
      (fun o _ => ∀ e, o = .error e → ¬ e.OfApproval) w := by
  have hspares : Plain (writeApproval input) := Prog.Spares.bind (fun _ _ => trivial) fun now =>
    spares_updateInvitation.bind fun _ => Prog.Spares.bind (fun _ _ => trivial) fun _ => trivial
  refine Prog.Guarantees.bind <| guarantees_perform fun t ht => ?_
  have hends : (writeApproval input).Ends (fun updated _ => ∃ actorId now now',
      updated = (approvalUpdate actorId now).apply now' r) t := by
    simp only [writeApproval, Prog.ends_bind, ends_clock, ends_updateInvitation, ends_note]
    intro r' hr'
    obtain rfl : r' = r := by
      rw [World.row, ht.1] at hr'
      exact Option.some.inj (hr'.symm.trans hr)
    exact ⟨_, _, _, rfl⟩
  have hpost : (writeApproval input).Post (fun o _ => ∀ e, o = .error e → ¬ e.OfApproval) t :=
    hspares.post
  refine (hpost.and hends).mono fun o v hv => ⟨trivial, ?_⟩
  cases o with
  | error e => exact hv.1
  | ok updated =>
    obtain ⟨actorId, now, now', rfl⟩ := hv.2
    have hplain : Plain (afterWrite cfg ctx input ((approvalUpdate actorId now).apply now' r)) :=
      afterApproval_plain hlate
    exact hplain.guarantees

theorem grantOnApproval_keeps {t : World} (ht : Same w t) :
    (grantOnApproval input r).Guarantees Same (fun _ _ => True) (fun
      | .ok _, v => v.db = w.db
      | .error _, v => Same w v) t := by
  unfold grantOnApproval
  split
  · exact guarantees_perform fun u hu => Block.post_call.2
      ⟨⟨trivial, hu.1.trans ht.1, hu.2.trans ht.2⟩, trivial, hu.1.trans ht.1⟩
  · exact ht.1

/-- When it is not refused late, `approve` throws its own exceptions before it has done anything. -/
theorem approve_own (ha : input.approve = true) (hlate : ¬ LateRefusal input w) :
    (approve cfg ctx input).Guarantees Same (fun _ _ => True)
      (fun o v => ∀ e, o = .error e → e.OfApproval → Same w v) w := by
  rw [approve_eq ha]
  refine Prog.Guarantees.bind <| guarantees_perform fun t ht => ?_
  have hends : (checkApproval input).Ends (fun r _ => t.row input.id = some r ∧
      input.activeEventId = some r.eventId ∧ r.rsvpChoice = some .yes ∧ r.status ≠ .approved) t :=
    ends_checkApproval fun r hr hevent hyes _ => ⟨hr, hevent, hyes ha⟩
  refine ((looks_checkApproval t).and hends).mono fun o v hv => ⟨trivial, ?_⟩
  obtain ⟨rfl, hv⟩ := hv
  cases o with
  | error e => exact fun _ _ _ => ht
  | ok r =>
    obtain ⟨hr, hevent, hyes, hst⟩ := hv
    have hw : w.row input.id = some r := by
      rw [World.row, ← ht.1]
      exact hr
    have hcontact : r.guestProfileId = none →
        (r.firstName ≠ "" ∧ r.lastName ≠ "") ∧ r.pendingContactId ≠ none := by
      intro hg
      by_contra hmiss
      refine hlate ⟨r, hw, hevent, hyes, hst, hg, ?_⟩
      by_contra hnot
      exact hmiss ⟨⟨fun h => hnot (.inl h), fun h => hnot (.inr (.inl h))⟩,
        fun h => hnot (.inr (.inr h))⟩
    refine Prog.Guarantees.bind <| (grantOnApproval_keeps (r := r) ht).weaken fun o u hu => ?_
    cases o with
    | error e => exact fun _ _ _ => hu
    | ok _ =>
      refine (approve_writes (r := r) ?_ hcontact).weaken fun o v hq => fun e he ho =>
        absurd ho (hq e he)
      rw [World.row, hu]
      exact hw

theorem solo_checkApproval (ha : input.approve = true) (hr : w.row input.id = some r)
    (hevent : input.activeEventId = some r.eventId) (hyes : r.rsvpChoice = some .yes)
    (hst : r.status ≠ .approved) : (checkApproval input).solo false w = (.ok r, w) := by
  have hguard : (approveGuard input r).solo false w = (.ok (), w) := by
    simp [approveGuard, assertMatchesActiveEvent, hevent, ha, hyes, hst]
  rw [checkApproval, Prog.solo_bind_ok (solo_ensureExists hr), Prog.solo_bind_ok hguard]
  rfl

theorem solo_writeApproval (hr : w.row input.id = some r) :
    (writeApproval input).solo false w = (.ok ((approvalUpdate input.actorId w.now).apply w.now r),
      (w.setInvitations (w.db.invitations.patch input.id (approvalUpdate input.actorId w.now)
        w.now)).log (.approved input.id input.actorId)) := by
  rw [writeApproval, Prog.solo_bind_ok solo_clock, Prog.solo_bind_ok (solo_updateInvitation hr rfl),
    Prog.solo_bind_ok solo_note]
  rfl

theorem confirmApproval_refuses {settings : Option EventSettings}
    (h : r.firstName = "" ∨ r.lastName = "" ∨ r.pendingContactId = none) : ∃ e, e.OfApproval ∧
      ∀ c s, (confirmApproval cfg ctx input r settings).solo c s = (.error e, s) := by
  unfold confirmApproval
  simp only [liftM_eq]
  by_cases hname : r.firstName ≠ "" ∧ r.lastName ≠ ""
  · have hcontact : r.pendingContactId = none := by simpa [hname] using h
    rw [if_neg (by simp [hname]), if_pos (by simp [hcontact])]
    refine ⟨_, ?_, fun _ _ => rfl⟩
    trivial
  · rw [if_pos]
    · refine ⟨_, ?_, fun _ _ => rfl⟩
      trivial
    · by_cases hf : r.firstName = "" <;> simp_all

theorem afterApproval_refuses (hg : r.guestProfileId = none)
    (h : r.firstName = "" ∨ r.lastName = "" ∨ r.pendingContactId = none) (s : World) :
    ∃ e v, e.OfApproval ∧
      (afterWrite cfg ctx input r).solo (fun _ => false) s = (.error e, v) ∧ v.db = s.db := by
  obtain ⟨e, he, hlast⟩ := @confirmApproval_refuses cfg ctx input r (s.db.settings r.eventId) h
  refine ⟨e, s.log (.produced (.milestoneRecorded r.eventId .approved
    (r.approvedAt.getD s.now) r.id)
    (some input.actorId <|> ctx.actorId) (currentTenantId cfg ctx)), he, ?_, rfl⟩
  unfold afterWrite publishMilestone
  simp only [liftM_eq]
  rw [Prog.solo_bind_ok (solo_perform.trans solo_findSettings),
    Prog.solo_bind_ok (solo_perform.trans solo_clock),
    Prog.solo_bind_ok (solo_perform.trans solo_send), hg]
  exact Prog.solo_bind_error (hlast ..)

theorem approve_late (ha : input.approve = true) (hlate : LateRefusal input w) :
    ∃ e v, e.OfApproval ∧ (approve cfg ctx input).solo (fun _ => false) w = (.error e, v) ∧
      v.row input.id ≠ w.row input.id := by
  obtain ⟨r, hr, hevent, hyes, hst, hg, hmiss⟩ := hlate
  have hgrant : (grantOnApproval input r).solo (fun _ => false) w = (.ok (), w) := by
    rw [grantOnApproval, hg]
    rfl
  have hcheck := (solo_perform (s := w)).trans (solo_checkApproval ha hr hevent hyes hst)
  have hstored : (writeApproval input).solo false w = _ := solo_writeApproval hr
  have hwrite := (solo_perform (s := w)).trans hstored
  obtain ⟨e, v, he, hlast, hdb⟩ := @afterApproval_refuses cfg ctx input
    ((approvalUpdate input.actorId w.now).apply w.now r) hg hmiss
    ((w.setInvitations (w.db.invitations.patch input.id (approvalUpdate input.actorId w.now)
      w.now)).log (.approved input.id input.actorId))
  refine ⟨e, v, he, ?_, fun hrow => ?_⟩
  · rw [approve_eq ha, Prog.solo_bind_ok hcheck, Prog.solo_bind_ok hgrant,
      Prog.solo_bind_ok hwrite]
    exact hlast
  · rw [World.row, hdb, World.log_db, World.setInvitations_invitations,
      InvitationTable.patch_row_self, show w.db.invitations.row input.id =
        some r from hr, hr] at hrow
    exact hst (congrArg Invitation.status (Option.some.inj hrow)).symm

end AdminWrite

def Effect.IsApproval : Effect → Prop
  | .produced (.milestoneRecorded _ .approved ..) .. => True
  | _ => False

/-- Whenever `approve` throws an exception of its own, the invitation is as it was and no approval
has been announced. -/
def RefusesUnchanged (cfg : Config) (ctx : Context) (input : ApproveInvitationDTO) (w : World) :
    Prop :=
  ∀ e v, Prog.Exec (ReflTransGen World.Environment) (AdminWrite.approve cfg ctx input) w
    (.error e) v →
    e.OfApproval → v.row input.id = w.row input.id ∧
      ∃ l, v.journal = l ++ w.journal ∧ ∀ x ∈ l, ¬ x.IsApproval

/-- An approval that `approve` refuses leaves the invitation unapproved, just when its late checks
would pass on the row it starts from. -/
theorem refuses_unchanged_iff {input : ApproveInvitationDTO} {w : World}
    (ha : input.approve = true) :
    RefusesUnchanged cfg ctx input w ↔ ¬ LateRefusal input w := by
  constructor
  · intro hunchanged hlate
    obtain ⟨e, v, he, hrun, hrow⟩ := @AdminWrite.approve_late cfg ctx input w ha hlate
    exact hrow (hunchanged e v (Prog.exec_solo (fun _ => .refl) _ hrun) he).1
  · intro hlate e v hex he
    obtain ⟨hdb, hjour⟩ := hex.ends (AdminWrite.approve_own ha hlate)
      (fun _ _ => AdminWrite.Same.of_environments) e rfl he
    exact ⟨by rw [World.row, hdb], [], hjour, fun _ hx => absurd hx List.not_mem_nil⟩

def companyWorld : World := (trace plainConfig [invitationFor 1, replyWithPlusOne] .empty).2

def approveCompany (i : Nat) : ApproveInvitationDTO :=
  { id := i, approve := true, actorId := 5, activeEventId := some 7 }

theorem refuses_unchanged_guest : RefusesUnchanged plainConfig {}
    (approveCompany 0) companyWorld := by
  have hrow : (companyWorld.row 0).all (fun r =>
      r.firstName ≠ "" && r.lastName ≠ "" && r.pendingContactId.isSome) = true := by decide
  refine (refuses_unchanged_iff rfl).2 ?_
  rintro ⟨r, hr, -, -, -, -, hmiss⟩
  rw [show companyWorld.row 0 = some r from hr] at hrow
  simp only [Option.all_some, Bool.and_eq_true, decide_eq_true_eq] at hrow
  obtain ⟨⟨hf, hl⟩, hc⟩ := hrow
  rcases hmiss with h | h | h
  · exact hf h
  · exact hl h
  · rw [h] at hc
    cases hc

/-- The plus-one is approved, announced, and then refused for want of a contact. -/
theorem not_refuses_unchanged : ¬ ∀ input w, input.approve = true →
    RefusesUnchanged plainConfig {} input w := by
  intro hall
  have hrow : (companyWorld.row 1).any (fun r => r.eventId = 7 && r.rsvpChoice = some .yes &&
      r.status ≠ .approved && r.guestProfileId.isNone && r.pendingContactId.isNone) = true := by
    decide
  obtain ⟨r, hr, hok⟩ := (Option.any_eq_true _ _).1 hrow
  simp only [Bool.and_eq_true, decide_eq_true_eq, Option.isNone_iff_eq_none] at hok
  obtain ⟨⟨⟨⟨hevent, hyes⟩, hst⟩, hg⟩, hc⟩ := hok
  obtain ⟨e, v, he, hrun, hne⟩ := @AdminWrite.approve_late plainConfig {} (approveCompany 1)
    companyWorld rfl ⟨r, hr, congrArg some hevent.symm, hyes, hst, hg, .inr (.inr hc)⟩
  exact hne (hall _ companyWorld rfl e v (Prog.exec_solo (fun _ => .refl) _ hrun) he).1

end InvitationService

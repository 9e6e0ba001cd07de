import InvitationService.Lifecycle.Handlers

open Relation (ReflTransGen)

namespace InvitationService

open Resumption

/-! A step, seen from one row. -/

section

variable (R : World → World → Prop) (cfg : Config) (c : Call) (a w : World)

def Call.Replies : Call → Prop
  | .replyInvitation .. => True
  | _ => False

inductive Born : Invitation → Prop
  | created {r : Invitation} : c.Creates cfg w.now r → Born r
  | replyPlusOne {input : RSVPInput} {locale : Locale} {r : Invitation} {now : Nat}
      {selectedInvitedBy : List String} {p : PublicPlusOneInput} :
      c = .replyInvitation input locale →
      Born ((GuestWrite.replyPlusOne cfg r now selectedInvitedBy p).stamped w.now)
  | plusOne {input : CreatePlusOneInput} {user : UserId} {locale : Locale} {e : EventId} {p : Nat}
      {autoApprove : Bool} :
      c = .createPlusOnesInvitation input user locale →
      Born ((GuestWrite.plusOneChild cfg input e p user autoApprove w.now).stamped w.now)
  | publicInvitee {input : PublicRsvpInput} {locale : Locale} {settings : Option EventSettings}
      {selectedInvitedBy : List String} {guestNote : Option String} :
      c = .createInvitationFromRsvp input locale →
      Born ((GuestWrite.publicInvitee cfg input settings selectedInvitedBy guestNote
        w.now).stamped w.now)
  | publicPlusOne {input : PublicRsvpInput} {locale : Locale} {i : Nat}
      {selectedInvitedBy : List String} {p : PublicPlusOneInput} :
      c = .createInvitationFromRsvp input locale →
      Born ((GuestWrite.publicPlusOne cfg input i selectedInvitedBy w.now p).stamped w.now)

theorem InvitationUpdate.apply_confirmationResendCount {d : InvitationUpdate}
    (h : d.confirmationResendCount = none) (now : Nat) (x : Invitation) :
    (d.apply now x).confirmationResendCount = x.confirmationResendCount := by
  rw [InvitationUpdate.apply, h]
  exact Int.add_zero _

structure InvitationUpdate.Neutral (d : InvitationUpdate) : Prop where
  status : d.status = none
  rsvpChoice : d.rsvpChoice = none
  pendingContactId : d.pendingContactId = none
  pendingContactPayload : d.pendingContactPayload = none
  confirmationResendCount : d.confirmationResendCount = none

namespace InvitationUpdate.Neutral

variable {d : InvitationUpdate} (h : d.Neutral) (now : Nat) (x : Invitation)

include h

theorem apply_status : (d.apply now x).status = x.status := by
  rw [InvitationUpdate.apply, h.status]; rfl

theorem apply_rsvpChoice : (d.apply now x).rsvpChoice = x.rsvpChoice := by
  rw [InvitationUpdate.apply, h.rsvpChoice]; rfl

theorem apply_pendingContactId : (d.apply now x).pendingContactId = x.pendingContactId := by
  rw [InvitationUpdate.apply, h.pendingContactId]; rfl

theorem apply_pendingContactPayload :
    (d.apply now x).pendingContactPayload = x.pendingContactPayload := by
  rw [InvitationUpdate.apply, h.pendingContactPayload]; rfl

end InvitationUpdate.Neutral

inductive Write (i : Nat) : Option Invitation → Option Invitation → Prop
  | insert {x : Invitation} : w.db.invitations.next ≤ i → Born cfg c w x →
      Write i none (some (x.withId i))
  | delete {x : Invitation} : Write i (some x) none
  | modify {x : Invitation} {d : InvitationUpdate} : d.Neutral → ¬ c.Replies →
      Write i (some x) (some (d.apply w.now x))
  | reply {input : RSVPInput} {locale : Locale} {r x : Invitation} {plan : GuestWrite.ReplyPlan}
      {now : Nat} :
      c = .replyInvitation input locale → input.invitationId = i → R a w → Snapshot R i r w →
      w.row i = some x → GuestWrite.planReply r input = .ok plan →
      Write i (some x) (some ((GuestWrite.replyUpdate cfg r plan now
        input.replyInput).apply w.now x))
  | attach {x : Invitation} {e : EventId} {token : Nat} {payload : PendingUser} :
      (x.eventId = e ∨ ∃ r, Snapshot R i r w ∧ r.eventId = e) → FreshContact i e payload →
      (w.nextToken ≤ token ∨ Minted R token payload w) →
      (c.Submits i payload.details ∨ w.db.invitations.next ≤ i ∨ a.db.invitations.next ≤ i) →
      Write i (some x) (some ((pendingUpdate token payload).apply w.now x))
  | reject {r x : Invitation} {actorId : UserId} {now : Nat} :
      c.Judges i false → Snapshot R i r w → r.status ≠ .rejected →
      Write i (some x) (some ((rejectionUpdate actorId now).apply w.now x))
  | send {r x : Invitation} {payload : PendingUser} {token now : Nat} {incrementResend : Bool} :
      Snapshot R i r w → r.guestProfileId = none →
      GuestConfirmation.actionable r.status = true → PayloadOf R r payload w →
      Minted R token payload w →
      (incrementResend = true → c.Resends ∧ truthy payload.seatId = true) →
      Write i (some x) (some ((sendUpdate token payload now incrementResend).apply w.now x))
  | stage {ids : List Nat} {staged : Bool} {e : Option EventId} {r x : Invitation} :
      c = .bulkStageInvitations ids staged e → Snapshot R i r w → w.row i = some x →
      (if staged then AdminWrite.canStage r = true else AdminWrite.canUnstage r = true) →
      Write i (some x) (some (InvitationUpdate.apply
        { status := some (AdminWrite.stagedStatus staged r) } w.now x))

abbrev Writes (i : Nat) (o : Option Invitation) : Prop :=
  ReflTransGen (Write R cfg c a w i) (w.row i) o

end

variable {R : World → World → Prop} {cfg : Config} {c : Call} {a w : World} {i j : Nat}
  {t u : InvitationTable}

theorem Born.blank {r : Invitation} (h : Born cfg c w r) : r.Blank := by
  cases h with
  | created hc =>
    cases c with
    | createInvitation input user =>
      obtain ⟨e, settings, -, -, rfl⟩ := hc
      exact ⟨rfl, rfl, rfl, rfl⟩
    | importInvitations e key uploadType sheet user =>
      obtain ⟨firstName, lastName, n, rfl⟩ := hc
      exact ⟨rfl, rfl, rfl, rfl⟩
    | _ => exact hc.elim
  | replyPlusOne _ => exact ⟨rfl, rfl, rfl, rfl⟩
  | plusOne _ => exact ⟨rfl, rfl, rfl, rfl⟩
  | publicInvitee _ => exact ⟨rfl, rfl, rfl, rfl⟩
  | publicPlusOne _ => exact ⟨rfl, rfl, rfl, rfl⟩

theorem Writes.patch {d : InvitationUpdate} {now : Nat} (h : Writes R cfg c a w j (t.row j))
    (hd : ∀ x, j = i → t.row j = some x →
      Write R cfg c a w j (some x) (some (d.apply now x))) :
    Writes R cfg c a w j ((t.patch i d now).row j) := by
  by_cases hj : j = i
  · subst hj
    rw [InvitationTable.patch_row_self]
    cases hx : t.row j with
    | none => rwa [hx] at h
    | some x =>
      rw [hx] at h
      exact h.tail (hd x rfl hx)
  · rwa [InvitationTable.patch_row_of_ne hj]

theorem Writes.insert {r : Invitation} {h : t.ParentExists r.invitedByInvitationId}
    (hw : Writes R cfg c a w j (t.row j)) (hn : w.db.invitations.next ≤ t.next)
    (hr : Born cfg c w r) : Writes R cfg c a w j ((t.insert r h).row j) := by
  by_cases hj : j = t.next
  · subst hj
    rw [t.row_next] at hw
    rw [InvitationTable.insert_row_next]
    exact hw.tail (.insert hn hr)
  · rwa [InvitationTable.insert_row_of_ne h hj]

theorem Writes.insertAll {rs : List Invitation} (h : InsertAll t rs u)
    (hw : Writes R cfg c a w j (t.row j)) (hn : w.db.invitations.next ≤ t.next)
    (hr : ∀ r ∈ rs, Born cfg c w r) : Writes R cfg c a w j (u.row j) := by
  induction h with
  | nil => exact hw
  | cons hp _ ih =>
    exact ih (hw.insert hn (hr _ (by simp))) (Nat.le_succ_of_le hn) fun x hx =>
      hr x (List.mem_cons_of_mem _ hx)

theorem Writes.gone {o : Option Invitation} (h : Writes R cfg c a w j (t.row j))
    (ho : o = none ∨ o = t.row j) : Writes R cfg c a w j o := by
  rcases ho with rfl | rfl
  · cases hx : t.row j with
    | none => rwa [hx] at h
    | some x =>
      rw [hx] at h
      exact h.tail .delete
  · exact h

theorem InvitationUpdate.Personal.neutral {d : InvitationUpdate} (h : d.Personal) : d.Neutral :=
  ⟨h.status, h.rsvpChoice, h.pendingContactId, h.pendingContactPayload, h.confirmationResendCount⟩

theorem InvitationUpdate.capacity_neutral (n : Int) : (capacityUpdate n).Neutral :=
  ⟨rfl, rfl, rfl, rfl, rfl⟩

theorem InvitationUpdate.limit_neutral (n : Int) : (limitUpdate n).Neutral :=
  ⟨rfl, rfl, rfl, rfl, rfl⟩

theorem Change.writes {o : List OutboxRow} (h : Change R cfg c a w t o) (j : Nat) :
    Writes R cfg c a w j (t.row j) := by
  have hw : Writes R cfg c a w j (w.db.invitations.row j) := .refl
  cases h with
  | same _ => exact hw
  | create hc _ => exact hw.insert (Nat.le_refl _) (.created hc)
  | @reply _ _ r _ _ _ _ t _ _ hc ha hr hr' hplan hins hu _ =>
    have ht : Writes R cfg c a w j (t.row j) := by
      refine Writes.insertAll hins (hw.patch fun x hj hx => ?_) (Nat.le_refl _) fun x hx => ?_
      · subst hj
        exact .reply hc rfl ha hr hx hplan
      · obtain ⟨p, -, rfl⟩ := List.mem_map.1 hx
        exact .replyPlusOne hc
    rcases hu with rfl | ⟨token, payload, hle, hfresh, hsub, rfl⟩
    · exact ht
    · refine ht.patch fun x hj _ => ?_
      subst hj
      exact .attach (.inr ⟨r, hr, rfl⟩) hfresh (.inl hle) (.inl hsub)
  | @plusOne _ _ _ p _ _ h _ _ _ auto hc _ _ hchild hle hfresh _ =>
    subst hchild
    have hpatch := hw.patch (i := p) (d := capacityUpdate (-1)) fun x _ _ =>
      .modify (InvitationUpdate.capacity_neutral _) (by rw [hc]; exact id)
    refine (hpatch.insert (h := h) (Nat.le_refl _) (.plusOne hc)).patch fun x hj hx => ?_
    subst hj
    refine .attach (.inl ?_) hfresh (.inl hle) (.inr (.inl (Nat.le_refl _)))
    have := InvitationTable.insert_row_next (t := w.db.invitations.patch p (capacityUpdate (-1))
      w.now) h
    rw [InvitationTable.patch_next, hx] at this
    cases this
    rfl
  | details hc hd => exact hw.patch fun x _ _ => .modify hd.neutral (by rw [hc]; exact id)
  | deleteOne hc _ _ =>
    exact (hw.gone InvitationTable.remove_row_eq).patch fun x _ _ =>
      .modify (InvitationUpdate.capacity_neutral _) (by rw [hc]; exact id)
  | deleteAll hc _ _ hrem =>
    exact (hw.gone hrem.row_eq).patch fun x _ _ =>
      .modify (InvitationUpdate.capacity_neutral _) (by rw [hc]; exact id)
  | publicRsvp hc hr hins _ =>
    subst hr
    refine Writes.insertAll hins (hw.insert (Nat.le_refl _) (.publicInvitee hc)) (Nat.le_succ _)
      fun x hx => ?_
    obtain ⟨p, -, rfl⟩ := List.mem_map.1 hx
    exact .publicPlusOne hc
  | attach _ hle hr hfresh htoken =>
    refine hw.patch fun x hj _ => ?_
    subst hj
    exact .attach (.inr ⟨_, hr, rfl⟩) hfresh (.inr htoken) (.inr (.inr hle))
  | limit hc _ _ =>
    exact hw.patch fun x _ _ => .modify (InvitationUpdate.limit_neutral _) (by rw [hc]; exact id)
  | reject hc hr hs =>
    refine hw.patch fun x hj _ => ?_
    subst hj
    exact .reject hc hr hs
  | link hc =>
    exact hw.patch fun x _ _ => .modify ⟨rfl, rfl, rfl, rfl, rfl⟩ (by rw [hc]; exact id)
  | send hr hg hs hp ht hi =>
    refine hw.patch fun x hj _ => ?_
    subst hj
    exact .send hr hg hs hp ht hi
  | @stage _ _ _ rs _ hc hn hrs hstage =>
    -- each listed row is written once, by what was read of it before
    by_cases hj : j ∈ rs.map (·.id)
    · obtain ⟨r, hr, rfl⟩ := List.mem_map.1 hj
      rw [hstage.row_of_mem hn hr]
      cases hx : w.db.invitations.row r.id with
      | none => rwa [hx] at hw
      | some x =>
        rw [hx] at hw
        exact hw.tail (.stage hc (hrs r hr).1 hx (hrs r hr).2)
    · exact (hstage.row_of_notMem hj).symm ▸ hw
  | remove _ => exact hw.gone InvitationTable.remove_row_eq
  | removeMany _ hrem => exact hw.gone hrem.row_eq

theorem Change.next_le {o : List OutboxRow} (h : Change R cfg c a w t o) :
    w.db.invitations.next ≤ t.next := by
  cases h with
  | same _ => exact Nat.le_refl _
  | create _ _ => exact Nat.le_succ _
  | reply _ _ _ _ _ hins hu _ =>
    have hn := hins.next_eq
    rcases hu with rfl | ⟨_, _, _, _, _, rfl⟩
    · rw [hn]
      exact Nat.le_add_right _ _
    · rw [InvitationTable.patch_next, hn]
      exact Nat.le_add_right _ _
  | plusOne _ _ _ _ _ _ _ _ => exact Nat.le_succ _
  | details _ _ => exact Nat.le_refl _
  | deleteOne _ _ _ => exact Nat.le_refl _
  | deleteAll _ _ _ hrem => exact hrem.next_eq.ge
  | publicRsvp _ _ hins _ =>
    rw [hins.next_eq, InvitationTable.insert_next]
    omega
  | attach _ _ _ _ _ => exact Nat.le_refl _
  | limit _ _ _ => exact Nat.le_refl _
  | reject _ _ _ => exact Nat.le_refl _
  | link _ => exact Nat.le_refl _
  | send _ _ _ _ _ _ => exact Nat.le_refl _
  | stage _ _ _ hstage => exact hstage.next_eq.ge
  | remove _ => exact Nat.le_refl _
  | removeMany _ hrem => exact hrem.next_eq.ge

theorem Action.next_le {v : World} (h : Action R cfg c a w v) :
    w.db.invitations.next ≤ v.db.invitations.next := by
  cases h with
  | step _ hch _ _ _ _ => exact hch.next_le
  | project hp => rw [hp.invitations]
  | approve _ _ _ _ => exact Nat.le_refl _
  | confirm _ _ _ _ _ _ _ => exact Nat.le_refl _
  | resent _ => exact Nat.le_refl _
  | reminded _ => exact Nat.le_refl _
  | ticket _ _ => exact Nat.le_refl _

end InvitationService

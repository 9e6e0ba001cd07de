import InvitationService.Invariants.Contact
import InvitationService.Lifecycle.Cache

open Relation (ReflTransGen)

namespace InvitationService

open Resumption Query InvitationTable

variable {cfg : Config} {ctx : Context} {c : Call} {a s t v w : World} {T U : InvitationTable}
  {i j now : Nat} {r x : Invitation}

/-- Invitation `i` is there and not rejected, if its id was ever handed out. -/
def Stands (T : InvitationTable) (i : Nat) : Prop :=
  i < T.next → ∃ r, T.row i = some r ∧ r.status ≠ .rejected

/-- No contact is cached for an invitation that is rejected or gone. -/
def Purged (w : World) : Prop := ∀ token i, w.cachedFor token = some i → Stands w.db.invitations i

namespace Stands

theorem of_row (hr : T.row i = some r) (h : r.status ≠ .rejected) :
    Stands T i := fun _ => ⟨r, hr, h⟩

theorem patch {d : InvitationUpdate} (h : Stands T i) (hd : d.status ≠ some .rejected) :
    Stands (T.patch j d now) i := fun hi => by
  obtain ⟨x, hx, hs⟩ := h hi
  rw [patch_row]
  split
  · rw [hx]
    refine ⟨_, rfl, ?_⟩
    rw [InvitationUpdate.apply]
    cases hst : d.status with
    | none => exact hs
    | some status => exact fun he => hd (hst.trans (congrArg some he))
  · exact ⟨x, hx, hs⟩

theorem insert {hp : T.ParentExists r.invitedByInvitationId} (h : Stands T i)
    (hr : r.status ≠ .rejected) : Stands (T.insert r hp) i := fun hi => by
  by_cases hn : i = T.next
  · subst hn
    exact ⟨_, insert_row_next hp, hr⟩
  · rw [insert_row_of_ne hp hn]
    exact h (Nat.lt_of_le_of_ne (Nat.le_of_lt_succ hi) hn)

theorem insertAll {rs : List Invitation} (hins : InsertAll T rs U) (h : Stands T i)
    (hrs : ∀ r ∈ rs, r.status ≠ .rejected) : Stands U i := by
  induction hins with
  | nil => exact h
  | cons hp _ ih =>
    obtain ⟨hr, hrs⟩ := List.forall_mem_cons.1 hrs
    exact ih (h.insert hr) hrs

theorem stageAll {staged : Bool} {rs : List Invitation} (hst : StageAll staged now T rs U)
    (h : Stands T i) : Stands U i := by
  induction hst with
  | nil => exact h
  | @cons T U r rs _ ih =>
    refine ih (h.patch fun he => ?_)
    have he : AdminWrite.stagedStatus staged r = .rejected := Option.some.inj he
    unfold AdminWrite.stagedStatus at he
    split at he
    · cases he
    · split at he <;> cases he

end Stands

theorem GuestWrite.planReply_status {input : RSVPInput} {plan : ReplyPlan}
    (h : planReply r input = .ok plan) : plan.resultingStatus ≠ .rejected := by
  rw [(planReply_spec h).status]
  cases input.choice with
  | yes =>
    dsimp only
    split <;> exact nofun
  | _ => exact nofun

theorem Born.status (h : Born cfg c w r) : r.status ≠ .rejected := by
  cases h with
  | created hc =>
    cases c with
    | createInvitation input user =>
      obtain ⟨e, settings, -, -, rfl⟩ := hc
      exact nofun
    | importInvitations e key uploadType sheet user =>
      obtain ⟨firstName, lastName, n, rfl⟩ := hc
      exact nofun
    | _ => exact hc.elim
  | @plusOne input user locale e p autoApprove _ =>
    cases autoApprove <;> exact nofun
  | _ => exact nofun

theorem Change.stands {R : World → World → Prop} {o : List OutboxRow} (h : Change R cfg c a w T o)
    (hj : ∀ i, ¬ c.Judges i false) (hc : c.removal = false) (hw : Stands w.db.invitations i) :
    Stands T i := by
  cases h with
  | same _ => exact hw
  | create hcreates _ => exact hw.insert (Born.created hcreates).status
  | reply hcall _ _ _ hplan hins hu _ =>
    have hT := Stands.insertAll hins (hw.patch fun he =>
      GuestWrite.planReply_status hplan (Option.some.inj he)) fun x hx => by
        obtain ⟨p, -, rfl⟩ := List.mem_map.1 hx
        exact nofun
    rcases hu with rfl | ⟨token, payload, -, -, -, rfl⟩
    · exact hT
    · exact hT.patch nofun
  | plusOne auto hcall _ _ hchild _ _ _ =>
    subst hchild
    refine Stands.patch (Stands.insert (Stands.patch hw nofun) ?_) nofun
    exact (show Born cfg c w _ from .plusOne hcall).status
  | details _ hd => exact hw.patch (by rw [hd.status]; exact nofun)
  | publicRsvp _ hr hins _ =>
    subst hr
    refine Stands.insertAll hins (hw.insert nofun) fun x hx => ?_
    obtain ⟨p, -, rfl⟩ := List.mem_map.1 hx
    exact nofun
  | reject hrej _ _ => exact absurd hrej (hj _)
  | stage _ _ _ hst => exact hw.stageAll hst
  | attach _ _ _ _ _ | limit _ _ _ | link _ | send _ _ _ _ _ _ => exact hw.patch nofun
  | deleteOne hcall _ _ | deleteAll hcall _ _ _ | removeMany hcall _ =>
    rw [hcall] at hc
    cases hc
  | remove hrem => cases c <;> first | exact False.elim hrem | cases hc

theorem Action.stands {R : World → World → Prop} (hA : Action R cfg c a w v)
    (hj : ∀ i, ¬ c.Judges i false) (hc : c.removal = false) (hw : Stands w.db.invitations i) :
    Stands v.db.invitations i := by
  cases hA with
  | step _ hch _ _ _ _ => exact hch.stands hj hc hw
  | project hp => rwa [hp.invitations]
  | approve _ _ _ _ => exact hw.patch nofun
  | confirm _ _ _ _ _ _ _ | resent _ | reminded _ | ticket _ _ => exact hw

structure Owns (i : Nat) (r : Invitation) : Prop where
  paired : r.pendingContactId.isSome = true → r.pendingContactPayload.isSome = true
  names : ∀ p, r.pendingContactPayload = some p → p.invitationId = i

/-- Nothing is left behind in the cache, and each row has its own contact. -/
structure Kempt (w : World) : Prop where
  purged : Purged w
  owns : ∀ i r, w.row i = some r → Owns i r

def Neat (v w : World) : Prop := Kempt v → Kempt w

def Minds (i : Nat) (r : Invitation) (v w : World) : Prop :=
  (r.status ≠ .rejected → Stands v.db.invitations i) → Kempt v →
    Kempt w ∧ (r.status ≠ .rejected → Stands w.db.invitations i)

theorem Rests.purged (h : Rests v w) (hv : Purged v) : Purged w := fun token i hi => by
  rw [h.invitations]
  exact hv token i (h.sheds.cachedFor hi)

theorem Rests.kempt (h : Rests v w) (hv : Kempt v) : Kempt w where
  purged := h.purged hv.purged
  owns i r hr := hv.owns i r (by rwa [World.row, ← h.invitations])

theorem absorbs_neat : Absorbs Neat :=
  ⟨fun _ _ _ h k hs => k (h hs), fun _ _ h hs => h.kempt hs⟩

theorem absorbs_minds : Absorbs (Minds i r) where
  trans _ _ _ h k hi hs := k (h hi hs).2 (h hi hs).1
  rests _ _ h hi hs := ⟨h.kempt hs, by rwa [h.invitations]⟩

theorem Kempt.cache {p : PendingUser} (h : Kempt w) (hp : Stands w.db.invitations p.invitationId) :
    Kempt (w.cachePending p) where
  purged token i hi := by
    by_cases ht : token = w.nextToken
    · subst ht
      rw [World.cachedFor, World.cachePending_self] at hi
      cases hi
      exact hp
    · exact h.purged token i (by simpa [World.cachedFor, World.cachePending, ht] using hi)
  owns := h.owns

theorem Kempt.patch {d : InvitationUpdate} (h : Kempt w) (hd : d.status ≠ some .rejected)
    (hown : ∀ r, w.row i = some r → Owns i (d.apply now r)) :
    Kempt (w.setInvitations (w.db.invitations.patch i d now)) where
  purged token j hj := (h.purged token j hj).patch hd
  owns j r hr := by
    rw [World.setInvitations_row, patch_row] at hr
    split at hr
    · rename_i hj
      subst hj
      obtain ⟨x, hx, rfl⟩ := Option.map_eq_some_iff.1 hr
      exact hown x hx
    · exact h.owns j r hr

theorem neat_find {α : Type} {g : Option Invitation → Program α}
    (hnone : (g none).Drifts Rests Neat)
    (hsome : ∀ r, Owns i r → (g (some r)).Drifts Rests (Minds i r)) :
    (perform (findInvitation i) >>= g).Drifts Rests Neat := by
  intro s
  by_cases hs : Kempt s
  · refine guarantees_perform_bind Rests.trans (fun _ _ h => h) rests_findInvitation (.refl s)
      (fun _ _ h => absorbs_neat.rests _ _ h) fun t ht => ends_findInvitation.2 fun _ => ?_
    have htk := ht.kempt hs
    cases hr : t.row i with
    | none => exact (hnone t).weaken fun _ u h _ => h htk
    | some r =>
      have hst : r.status ≠ .rejected → Stands t.db.invitations i := fun h => .of_row hr h
      exact (hsome r (htk.owns i r hr) t).weaken fun _ u h _ => (h hst htk).1
  · exact Prog.Guarantees.weaken (Prog.guarantees_true _) fun _ _ _ h => absurd h hs

namespace GuestConfirmation

variable {seatId : Option SeatId} {actorId : Option UserId} {locale : Option Locale}

theorem overrideLocale_invitationId (p : PendingUser) :
    (overrideLocale p locale).invitationId = p.invitationId := by
  unfold overrideLocale
  split
  · split <;> rfl
  · rfl

theorem minds_cacheSet {p : PendingUser} (hp : p.invitationId = i) (hr : r.status ≠ .rejected) :
    (cacheSet p).Moves (Minds i r) :=
  Block.moves_call (fun _ hi hs => ⟨hs, hi⟩) fun _ hi hs => ⟨hs.cache (hp ▸ hi hr), hi⟩

theorem minds_persistSend {p : PendingUser} {token : Nat} {inc : Bool} (hp : p.invitationId = i) :
    (persistSend i token p inc).Moves (Minds i r) := by
  have hupdate : ∀ d : InvitationUpdate, d.status = none →
      (∀ now x, Owns i (d.apply now x)) → (updateInvitation i d).Moves (Minds i r) := fun d hd ho =>
    moves_update (fun _ hi hs => ⟨hs, hi⟩) fun w hi hs =>
      ⟨hs.patch (by rw [hd]; exact nofun) fun x _ => ho _ x,
        fun hr => (hi hr).patch (by rw [hd]; exact nofun)⟩
  refine absorbs_minds.look rests_clock fun now =>
    (hupdate _ rfl fun _ x => ⟨fun _ => rfl, fun q hq => ?_⟩).bind absorbs_minds.trans fun _ =>
      absorbs_minds.query (rests_ret _)
  cases hq
  exact hp

theorem minds_send {α : Type} {p : PendingUser} {inc : Bool} {g : Nat → Program α}
    (hp : p.invitationId = i) (hr : r.status ≠ .rejected) (hg : ∀ token,
      (g token).Drifts Rests Rests) :
    (do
      let token ← perform (cacheSet p)
      perform (persistSend i token p inc)
      g token).Drifts Rests (Minds i r) :=
  absorbs_minds.seq (absorbs_minds.perform (minds_cacheSet hp hr)) fun token =>
    absorbs_minds.seq (absorbs_minds.perform (minds_persistSend hp)) fun _ =>
      absorbs_minds.of_rests (hg token)

theorem actionable_status (h : actionable r.status = true) : r.status ≠ .rejected := by
  intro he
  rw [he] at h
  cases h

theorem sendFirstConfirmation_neat :
    (sendFirstConfirmation cfg ctx i seatId actorId locale).Drifts Rests Neat := by
  unfold sendFirstConfirmation
  simp only [liftM_eq]
  refine neat_find (absorbs_neat.ret _) fun r hr => .ite (absorbs_minds.ret _) ?_
  split
  · exact absorbs_minds.ret _
  · rename_i hst
    split
    · exact absorbs_minds.ret _
    · rename_i hid
      have htoken : r.pendingContactId.isSome = true :=
        Option.isSome_iff_ne_none.2 (by simpa using hid)
      obtain ⟨stored, hp⟩ := Option.isSome_iff_exists.1 (hr.paired htoken)
      rw [resolvePendingContactPayload, hp]
      refine minds_send ((overrideLocale_invitationId stored).trans (hr.names stored hp))
        (actionable_status (by simpa using hst)) fun token => ?_
      exact absorbs_rests.seq (absorbs_rests.rest rests_emitConfirmGuest) fun _ =>
        absorbs_rests.seq scheduleReminders_rests fun _ => absorbs_rests.ret _

theorem sendFirstConfirmationOrReserve_neat :
    (sendFirstConfirmationOrReserve cfg ctx i seatId actorId locale).Drifts Rests Neat :=
  .ite sendFirstConfirmation_neat (absorbs_neat.of_rests requestSeatReservation_rests)

theorem rests_inResendCooldown : (inResendCooldown i).Moves Rests :=
  rests_call (fun _ => rfl) fun _ => rfl

theorem rests_setResendCooldown : (setResendCooldown i).Moves Rests :=
  rests_call (fun _ => rfl) fun _ => rfl

theorem resendConfirmation_neat :
    (resendConfirmation cfg ctx i actorId locale).Drifts Rests Neat := by
  have hdone : (do
      recordResentAnalytics ctx i
      perform (note (.resent i))
      pure ResendConfirmationResult.resent : Program _).Drifts Rests Rests :=
    absorbs_rests.seq recordResentAnalytics_rests fun _ =>
      absorbs_rests.seq (absorbs_rests.rest rests_note) fun _ => absorbs_rests.ret _
  unfold resendConfirmation
  simp only [liftM_eq]
  refine neat_find (absorbs_neat.ret _) fun r hr => .ite (absorbs_minds.ret _) ?_
  split
  · exact absorbs_minds.ret _
  · rename_i hst
    refine absorbs_minds.seq (absorbs_minds.rest rests_clock) fun now =>
      .ite (absorbs_minds.ret _) ?_
    cases hp : r.pendingContactPayload with
    | none => exact absorbs_minds.ret _
    | some stored =>
      refine absorbs_minds.seq (absorbs_minds.rest rests_inResendCooldown) fun cooling =>
        .ite (absorbs_minds.ret _) (absorbs_minds.seq (absorbs_minds.rest rests_setResendCooldown)
          fun _ => .ite ?_ ?_)
      · refine minds_send ((overrideLocale_invitationId stored).trans (hr.names stored hp))
          (actionable_status (by simpa using hst)) fun token => ?_
        exact absorbs_rests.seq (absorbs_rests.rest rests_emitConfirmGuest) fun _ => hdone
      · exact absorbs_minds.of_rests (absorbs_rests.seq requestSeatReservation_rests fun _ => hdone)

theorem requestPublicResend_neat {input : RequestGuestConfirmationInput} {l : Locale} :
    (requestPublicResend cfg ctx input l).Drifts Rests Neat := by
  unfold requestPublicResend
  simp only [liftM_eq]
  refine .ite (absorbs_neat.ret _) (.ite (absorbs_neat.ret _) ?_)
  refine absorbs_neat.seq (absorbs_neat.rest rests_findManyInvitations) fun candidates => ?_
  split
  · exact absorbs_neat.seq resendConfirmation_neat fun _ => absorbs_neat.ret _
  · exact absorbs_neat.ret _

end GuestConfirmation

namespace AdminWrite

theorem neat_writeApproval {input : ApproveInvitationDTO} : (writeApproval input).Moves Neat := by
  refine absorbs_neat.look rests_clock fun now => Prog.Moves.bind absorbs_neat.trans ?_ fun _ =>
    absorbs_neat.query (rests_note.bind Rests.trans fun _ => rests_ret _)
  refine Block.moves_call (fun _ h => h) fun w h => ?_
  split
  · exact h.patch nofun fun x hx => ⟨(h.owns _ x hx).paired, (h.owns _ x hx).names⟩
  · exact h

theorem approve_neat {input : ApproveInvitationDTO} (ha : input.approve = true) :
    (approve cfg ctx input).Drifts Rests Neat :=
  approve_drifts absorbs_neat ha neat_writeApproval
    GuestConfirmation.sendFirstConfirmationOrReserve_neat

theorem resendGuestConfirmations_neat {ids : List Nat} {locale : Option Locale} {user : UserId}
    {e : Option EventId} : (resendGuestConfirmations cfg ctx ids locale user e).Drifts
      Rests Neat := by
  unfold resendGuestConfirmations
  simp only [liftM_eq]
  refine absorbs_neat.forM fun i _ => absorbs_neat.seq (absorbs_neat.rest ?_) fun _ =>
    absorbs_neat.seq GuestConfirmation.resendConfirmation_neat fun _ => absorbs_neat.ret _
  exact rests_ensureExists.bind Rests.trans fun r => rests_assertMatchesActiveEvent

end AdminWrite

theorem rests_releaseLock {l : Lock} {token : Nat} : (releaseLock l token).Moves Rests :=
  rests_call (fun w => by split <;> rfl) fun w => by split <;> rfl

theorem neat_locked {l : Lock} {p : Program Unit} (hp : p.Drifts Rests Neat) :
    (do
      let token ← perform (acquireLock l)
      match token with
      | none => pure ()
      | some token => p.ensuring (perform (releaseLock l token))).Drifts Rests Neat := by
  refine absorbs_neat.seq (absorbs_neat.rest ?_) fun o => ?_
  · exact rests_call (fun w => by split <;> rfl) fun w => by split <;> rfl
  · cases o with
    | none => exact absorbs_neat.ret _
    | some token =>
      exact .ensuring absorbs_neat.trans hp (absorbs_neat.rest rests_releaseLock)

theorem generateTicket_neat {seatId : Option SeatId} {actorId : UserId} {locale : Option Locale} :
    (generateTicket cfg ctx i seatId actorId locale).Drifts Rests Neat := by
  refine neat_locked ?_
  unfold generateTicketLocked
  simp only [liftM_eq]
  refine absorbs_neat.seq (absorbs_neat.rest rests_findInvitation) fun o => ?_
  cases o with
  | none => exact absorbs_neat.ret _
  | some r =>
    exact .ite (absorbs_neat.ret _) (.ite (absorbs_neat.ret _) (.ite (absorbs_neat.ret _)
      (.ite (absorbs_neat.ret _)
        (absorbs_neat.seq GuestConfirmation.sendFirstConfirmationOrReserve_neat fun _ =>
          absorbs_neat.ret _))))

theorem remind_neat {actorId : Option UserId} {preset : Option String} :
    (remind cfg ctx i actorId preset).Drifts Rests Neat := by
  refine neat_locked ?_
  unfold remindLocked
  simp only [liftM_eq]
  refine absorbs_neat.seq (absorbs_neat.rest rests_findInvitation) fun o => ?_
  cases o with
  | none => exact absorbs_neat.ret _
  | some r =>
    refine absorbs_neat.seq (absorbs_neat.rest rests_findSettings) fun settings =>
      absorbs_neat.seq (absorbs_neat.rest rests_clock) fun now => ?_
    have hret := absorbs_neat.ret (.ok ())
    exact .ite hret (.ite hret (.ite hret (.ite hret (.ite hret (.ite hret (.ite hret
      (absorbs_neat.seq GuestConfirmation.resendConfirmation_neat fun _ =>
        absorbs_neat.rest rests_note)))))))

end InvitationService

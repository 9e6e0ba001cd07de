import InvitationService.Failure.Staging
import InvitationService.Isolation.Confined

namespace InvitationService

open Resumption Query

abbrev Isolated (R : World → World → Prop) (E : Scope) (p : Program α) (s : World) : Prop :=
  p.Within R (Stays R E) (fun _ u => Carries R s u) s

section

variable {R : World → World → Prop} {E : Scope} {cfg : Config} {ctx : Context} {s t : World}
  {i : Nat} {e : EventId} {r : Invitation}

theorem Carries.refl (s : World) : Carries R s s := fun _ h => h

theorem Carries.trans {u : World} (h : Carries R s t) (k : Carries R t u) : Carries R s u :=
  fun P hP => k P (h P hP)

theorem isolated_ret {x : Except Exception α} : Isolated R E (.ret x) s := by
  cases x with
  | ok a => exact .refl s
  | error e => trivial

theorem Isolated.seq {p : Program α} {g : α → Program β} (hp : Isolated R E p s)
    (hg : ∀ x t, Carries R s t → Isolated R E (g x) t) : Isolated R E (p >>= g) s :=
  Prog.Within.bind <| Prog.Within.weaken hp fun x t ht =>
    (hg x t ht).weaken fun _ _ hu => ht.trans hu

theorem Isolated.ite {P : Prop} [Decidable P] {p q : Program α} (hp : Isolated R E p s)
    (hq : Isolated R E q s) : Isolated R E (if P then p else q) s := by
  split
  · exact hp
  · exact hq

theorem isolated_forM {β : Type} {g : β → Program PUnit} {xs : List β}
    (h : ∀ x ∈ xs, ∀ t, Carries R s t → Isolated R E (g x) t) : Isolated R E (xs.forM g) s :=
  Prog.within_forM (K := fun t => Carries R s t)
    (fun x hx t ht => (h x hx t ht).weaken fun _ _ hu => ht.trans hu) (.refl s)

variable (hR : Follows R)

include hR

theorem isolated_look {b : Query α} (hb : b.Looks) : Isolated R E (perform b) s :=
  within_look hR hb fun _ _ ht => (Prog.ends_true b).mono fun _ _ _ _ => ht

theorem isolated_call {ε : Exception} {f : World → Except Exception α × World}
    (h : ∀ t, R s t → Stays R E t (f t).2) : Isolated R E (perform (Block.call ε f)) s :=
  within_stays_call hR fun t hst => ⟨h t hst, fun _ _ hu => hu⟩

theorem isolated_send {m : Message} {actorId : Option UserId}
    (h : ∀ t, R s t → (Effect.produced m actorId (currentTenantId cfg ctx)).About
      fun P => Seen R (World.Has E P) t) : Isolated R E (perform (send cfg ctx m actorId)) s :=
  isolated_call hR fun t hst => (Confined.refl t).log (h t hst)

theorem isolated_remind {actorId : Option UserId} {preset : Option String} {delayMs : Nat}
    (h : Belongs R E i e s) : Isolated R E
      (perform (schedule (.remind i actorId preset) delayMs)) s :=
  isolated_call hR fun t hst => (Confined.refl t).log (h.has_id hst)

theorem isolated_cacheSet {payload : PendingUser} : Isolated R E (perform (cacheSet payload)) s :=
  isolated_call hR fun t _ => (Confined.refl t).cache payload

theorem isolated_note {x : Effect} (h : ∀ t, R s t → x.About fun P => Seen R (World.Has E P) t) :
    Isolated R E (perform (note x)) s :=
  within_stays hR fun t hst => post_note.2 ⟨(Confined.refl t).log (h t hst), fun _ _ hu => hu⟩

namespace GuestConfirmation

theorem resolvePendingContactPayload_isolated :
    Isolated R E (resolvePendingContactPayload r) s := by
  unfold resolvePendingContactPayload
  split
  · exact isolated_ret
  · exact isolated_ret
  · exact isolated_look hR (Block.looks_call fun _ => rfl)

theorem settingsOf_isolated {invitation : Option Invitation} :
    Isolated R E (settingsOf invitation) s := by
  cases invitation with
  | none => exact isolated_ret
  | some r => exact isolated_look hR (Block.looks_call fun _ => rfl)

theorem scheduleReminders_isolated {actorId : Option UserId} (h : Belongs R E i e s) :
    Isolated R E (scheduleReminders cfg i actorId) s := by
  unfold scheduleReminders
  simp only [liftM_eq]
  refine (isolated_look hR looks_findInvitation).seq fun invitation t ht => ?_
  refine (settingsOf_isolated hR).seq fun settings u hu => ?_
  refine (isolated_look hR (Block.moves_observe fun _ => rfl)).seq fun now v hv => ?_
  have hv : Belongs R E i e v := ((h.carry ht).carry hu).carry hv
  split
  · exact isolated_forM fun x _ w hw => isolated_remind hR (hv.carry hw)
  · exact .ite isolated_ret (isolated_remind hR hv)

theorem persistSend_isolated {token : Nat} {payload : PendingUser} {inc : Bool}
    (h : Belongs R E i e s) : Isolated R E (perform (persistSend i token payload inc)) s := by
  refine within_stays hR fun t hst => ?_
  simp only [persistSend, Prog.post_bind, post_clock, post_updateInvitation]
  have hrefl : Stays R E t t := .refl t
  exact ⟨⟨hrefl, by simp⟩,
    fun _ _ => ⟨hrefl.table (h.patch hR hst _ _), fun _ _ hu => hu⟩,
    fun _ => ⟨hrefl, by simp⟩⟩

theorem emitConfirmGuest_isolated {token : Nat} {seatId : Option SeatId} {actorId : Option UserId}
    {operation : String} (hr : Known R (fun v => v.row i = some r) s) (hE : E i r.eventId) :
    Isolated R E (perform (emitConfirmGuest cfg ctx r token seatId actorId operation)) s := by
  refine within_stays hR fun t hst => ?_
  simp only [emitConfirmGuest, Prog.post_bind, post_clock, post_send]
  exact ⟨⟨.refl t, by simp⟩, (Confined.refl t).log (hr.has hE ⟨rfl, rfl⟩ hst),
    fun _ _ hu => hu⟩

theorem sendFirstConfirmation_isolated {seatId : Option SeatId} {actorId : Option UserId}
    {locale : Option Locale} (h : Mine R E i s) :
    Isolated R E (sendFirstConfirmation cfg ctx i seatId actorId locale) s := by
  unfold sendFirstConfirmation
  simp only [liftM_eq]
  refine Prog.Within.bind <| within_look hR looks_findInvitation fun t hst ht =>
    ends_findInvitation.2 fun _ => ?_
  cases hr : t.row i with
  | none => exact ht
  | some r =>
    have hE := h.row hR hst hr
    have hrow : Known R (fun v => v.row i = some r) t := .of_now hr
    have hbelongs : Belongs R E i r.eventId t := .of_row hr hE
    refine Prog.Within.weaken (Isolated.ite isolated_ret (.ite isolated_ret (.ite isolated_ret ?_)))
      fun _ _ hu => ht.trans hu
    refine (resolvePendingContactPayload_isolated hR).seq fun o u hu => ?_
    cases o with
    | none => exact isolated_ret
    | some stored =>
      refine (isolated_cacheSet hR).seq fun token v hv => ?_
      refine (persistSend_isolated hR ((hbelongs.carry hu).carry hv)).seq fun _ w hw => ?_
      refine (emitConfirmGuest_isolated hR (hw _ (hv _ (hu _ hrow))) hE).seq fun _ x hx => ?_
      exact (scheduleReminders_isolated hR ((((hbelongs.carry hu).carry hv).carry hw).carry hx)).seq
        fun _ _ _ => isolated_ret

theorem requestSeatReservation_isolated {actorId : Option UserId} (h : Mine R E i s) :
    Isolated R E (requestSeatReservation cfg ctx i actorId) s := by
  unfold requestSeatReservation
  simp only [liftM_eq]
  refine Prog.Within.bind <| within_look hR looks_findInvitation fun t hst ht =>
    ends_findInvitation.2 fun _ => ?_
  cases hr : t.row i with
  | none => exact ht
  | some r =>
    have hrow : Known R (fun v => v.row i = some r) t := .of_now hr
    have hsend : Isolated R E (do
        perform (send cfg ctx (.seatReserve ⟨r.eventId, i, actorId⟩) actorId)
        return true) t := by
      refine (isolated_send hR fun u htu => ?_).seq fun _ _ _ => isolated_ret
      exact hrow.has (h.row hR hst hr) ⟨t.db.invitations.id_eq hr, rfl⟩ htu
    exact Prog.Within.weaken (Isolated.ite isolated_ret (.ite isolated_ret hsend))
      fun _ _ hu => ht.trans hu

theorem sendFirstConfirmationOrReserve_isolated {seatId : Option SeatId} {actorId : Option UserId}
    {locale : Option Locale} (h : Mine R E i s) :
    Isolated R E (sendFirstConfirmationOrReserve cfg ctx i seatId actorId locale) s :=
  .ite (sendFirstConfirmation_isolated hR h) (requestSeatReservation_isolated hR h)

theorem recordResentAnalytics_isolated (h : Belongs R E i e s) :
    Isolated R E (recordResentAnalytics ctx i) s :=
  within_confines hR fun t hst =>
    confines_enqueue (.refl t) (.inl (h.has_id hst)) fun _ hu => hu

theorem resendConfirmation_isolated {actorId : Option UserId} {locale : Option Locale}
    (h : Mine R E i s) : Isolated R E (resendConfirmation cfg ctx i actorId locale) s := by
  unfold resendConfirmation
  simp only [liftM_eq]
  refine Prog.Within.bind <| within_look hR looks_findInvitation fun t hst ht =>
    ends_findInvitation.2 fun _ => ?_
  cases hr : t.row i with
  | none => trivial
  | some r =>
    have hE := h.row hR hst hr
    have hrow : Known R (fun v => v.row i = some r) t := .of_now hr
    have hbelongs : Belongs R E i r.eventId t := .of_row hr hE
    have hafter : ∀ u, Carries R t u → Isolated R E (do
        recordResentAnalytics ctx i
        perform (note (.resent i))
        pure ResendConfirmationResult.resent) u := fun u hu => by
      refine (recordResentAnalytics_isolated hR (hbelongs.carry hu)).seq fun _ v hv => ?_
      refine (isolated_note hR fun w hw => ?_).seq fun _ _ _ => isolated_ret
      exact ((hbelongs.carry hu).carry hv).has_id hw
    refine Prog.Within.weaken (Isolated.ite isolated_ret (.ite isolated_ret ?_))
      fun _ _ hu => ht.trans hu
    refine (isolated_look hR (Block.moves_observe fun _ => rfl)).seq fun now u hu => ?_
    refine .ite isolated_ret ?_
    split
    · exact isolated_ret
    · rename_i stored _
      refine (isolated_look hR (Block.looks_call fun _ => rfl)).seq fun cooling v hv => ?_
      refine .ite isolated_ret ?_
      have hbelongs' := (hbelongs.carry hu).carry hv
      refine Isolated.seq (isolated_call hR fun w hw =>
        (Confined.refl w).cool (hbelongs'.has_id hw))
        fun _ w hw => ?_
      have hw : Carries R t w := (hu.trans hv).trans hw
      split
      · refine (isolated_cacheSet hR).seq fun token x hx => ?_
        refine (persistSend_isolated hR (hbelongs.carry (hw.trans hx))).seq fun _ y hy => ?_
        refine (emitConfirmGuest_isolated hR (hy _ (hx _ (hw _ hrow))) hE).seq fun _ z hz => ?_
        exact hafter z (((hw.trans hx).trans hy).trans hz)
      · refine (requestSeatReservation_isolated hR (hbelongs.carry hw).mine).seq fun _ x hx => ?_
        exact hafter x (hw.trans hx)

end GuestConfirmation

namespace AdminWrite

variable {input : ApproveInvitationDTO}

theorem confirmApproval_isolated {settings : Option EventSettings}
    (h : Belongs R E input.id r.eventId s) :
    Isolated R E (confirmApproval cfg ctx input r settings) s := by
  unfold confirmApproval
  simp only [liftM_eq]
  refine .ite isolated_ret (.ite isolated_ret ?_)
  refine (isolated_look hR (Block.moves_observe fun _ => rfl)).seq fun now t ht => ?_
  have hsend : Isolated R E (do
      let _ ← GuestConfirmation.sendFirstConfirmationOrReserve cfg ctx input.id input.seatId
        (some input.actorId) input.locale
      pure ()) t :=
    (GuestConfirmation.sendFirstConfirmationOrReserve_isolated hR (h.carry ht).mine).seq
      fun _ _ _ => isolated_ret
  split
  · exact .ite (isolated_call hR fun u hu => (Confined.refl u).log ((h.carry ht).has hu)) hsend
  · exact hsend

theorem isolated_write {d : Nat → InvitationUpdate} {x : Effect} (h : Belongs R E i e s)
    (hx : ∀ t, R s t → x.About fun P => Seen R (World.Has E P) t) :
    (perform (do
      let now ← clock
      let updated ← updateInvitation i (d now)
      note x
      return updated)).Within R (Stays R E) (fun updated u => Carries R s u ∧
        Known R (fun v => v.row i = some updated) u ∧ updated.eventId = e) s := by
  refine within_stays hR fun t hst => ?_
  have hrefl : Stays R E t t := .refl t
  simp only [Prog.post_bind, post_clock]
  refine post_update (fun _ => ⟨hrefl, by simp⟩) fun r hr => ?_
  simp only [post_note]
  refine ⟨(hrefl.table (h.patch hR hst _ _)).log (hx t hst), fun y hy hu => ?_⟩
  obtain rfl := Except.ok.inj hy
  refine ⟨hu, .of_now ?_, (h.row hR hst hr : r.eventId = e)⟩
  rw [World.log_row, World.setInvitations_row, InvitationTable.patch_row_self]
  exact congrArg (Option.map _) hr

theorem afterWrite_isolated (hrow : Known R (fun v => v.row input.id = some r) s)
    (hE : E input.id r.eventId) : Isolated R E (afterWrite cfg ctx input r) s := by
  have h : Belongs R E input.id r.eventId s := ⟨hE, hrow.weaken fun _ hv => ⟨r, hv, rfl⟩⟩
  unfold afterWrite
  simp only [liftM_eq]
  refine (isolated_look hR (Block.looks_call fun _ => rfl)).seq fun settings t ht => ?_
  refine (isolated_look hR (Block.moves_observe fun _ => rfl)).seq fun now u hu => ?_
  refine Isolated.seq (isolated_send hR fun v hv => ?_) fun _ v hv => ?_
  · exact (hu _ (ht _ hrow)).has hE ⟨rfl, rfl⟩ hv
  · exact .ite ((confirmApproval_isolated hR (((h.carry ht).carry hu).carry hv)).seq
      fun _ _ _ => isolated_ret) isolated_ret

theorem approve_isolated (hE : ∀ e, input.activeEventId = some e → E input.id e) :
    Isolated R E (approve cfg ctx input) s := by
  have hcheck : ∀ {β : Type} {g : Invitation → Program β}, (∀ t r, Carries R s t →
      Known R (fun v => v.row input.id = some r) t → E input.id r.eventId →
        Isolated R E (g r) t) → Isolated R E (perform (checkApproval input) >>= g) s := by
    refine fun hg => Prog.Within.bind <| within_look hR looks_checkApproval fun t _ ht =>
      ends_checkApproval fun r hr hevent _ _ _ => ?_
    exact (hg t r ht (.of_now hr) (hE _ hevent)).weaken fun _ _ hu => ht.trans hu
  have hbelongs : ∀ {t r}, Known R (fun v => v.row input.id = some r) t → E input.id r.eventId →
      Belongs R E input.id r.eventId t := fun hrow hE => ⟨hE, hrow.weaken fun _ hv => ⟨_, hv, rfl⟩⟩
  cases ha : input.approve with
  | true =>
    rw [approve_eq ha]
    refine hcheck fun t r _ hrow hE => ?_
    have hgrant : Isolated R E (grantOnApproval input r) t := by
      unfold grantOnApproval
      split
      · rename_i guest hguest
        exact isolated_call hR fun u hu => (Confined.refl u).log (hrow.has hE ⟨rfl, hguest⟩ hu)
      · exact isolated_ret
    refine hgrant.seq fun _ u hu => ?_
    have hu' := hbelongs (hu _ hrow) hE
    refine Prog.Within.bind <| (isolated_write hR (x := .approved input.id input.actorId) hu'
      fun v hv => hu'.has_id hv).weaken fun updated v ⟨hv, hupdated, he⟩ => ?_
    exact (afterWrite_isolated hR hupdated (he ▸ hE)).weaken fun _ _ hw => hv.trans hw
  | false =>
    rw [approve_eq_of_reject ha]
    refine hcheck fun t r _ hrow hE => ?_
    have hdrop : Isolated R E (dropOnRejection r) t := by
      unfold dropOnRejection
      split
      · rename_i token htoken
        exact isolated_call hR fun u hu => (Confined.refl u).drop (hrow.has hE htoken hu)
      · exact isolated_ret
    refine hdrop.seq fun _ u hu => ?_
    have hu' := hbelongs (hu _ hrow) hE
    exact (isolated_write hR (x := .rejected input.id input.actorId) hu' fun v hv =>
      hu'.has_id hv).weaken fun _ _ hv => hv.1

omit hR in
theorem looks_assertMatches {activeEventId : Option EventId} : (do
    let invitation ← ensureExists i
    assertMatchesActiveEvent invitation.eventId activeEventId : Query Unit).Looks :=
  looks_ensureExists.bind fun _ => looks_assertMatchesActiveEvent

theorem isolated_checked {β : Type} {activeEventId : Option EventId} {g : Unit → Program β}
    (hE : ∀ e, activeEventId = some e → E i e)
    (hg : ∀ t e, Carries R s t → Belongs R E i e t → Isolated R E (g ()) t) :
    Isolated R E (perform (do
      let invitation ← ensureExists i
      assertMatchesActiveEvent invitation.eventId activeEventId) >>= g) s := by
  refine Prog.Within.bind <| within_look hR looks_assertMatches fun t _ ht => ?_
  simp only [Prog.ends_bind, ends_ensureExists, ends_assertMatchesActiveEvent]
  intro r hr hevent _
  exact (hg t _ ht (.of_row hr (hE _ hevent))).weaken fun _ _ hu => ht.trans hu

theorem delete_isolated {activeEventId : Option EventId}
    (hE : ∀ e, activeEventId = some e → E i e) : Isolated R E (delete i activeEventId) s := by
  unfold delete
  simp only [liftM_eq]
  refine isolated_checked hR hE fun t e _ h => Isolated.seq ?_ fun _ _ _ => isolated_ret
  refine within_stays hR fun u hu => post_deleteInvitation.2 ?_
  have hrefl : Stays R E u u := .refl u
  refine ⟨⟨hrefl, by simp⟩, fun r hr => ⟨hrefl.table (.remove fun j x hj hx => ?_),
    fun _ _ hv => hv⟩, fun _ => ⟨hrefl, by simp⟩⟩
  obtain rfl : j = i := by simpa using hj
  rw [h.row hR hu hx]
  exact h.1

omit hR in
theorem confines_deleteMany {ids : List Nat} {activeEventId : Option EventId} {v w : World}
    (hE : ∀ id ∈ ids, ∀ e, activeEventId = some e → E id e) (hv : Stays R E w v) :
    Confines R E w (ids.forM fun id => do
      let invitation ← ensureExists id
      assertMatchesActiveEvent invitation.eventId activeEventId
      let _ ← deleteInvitation id : Query Unit) (fun _ _ => True) v := by
  induction ids generalizing v with
  | nil => exact confines_ok hv trivial
  | cons id ids ih =>
    rw [Prog.forM_cons]
    refine Confines.bind <| Confines.bind <| confines_look looks_ensureExists hv <|
      ends_ensureExists.2 fun r hr _ => ?_
    refine Confines.bind <| confines_look looks_assertMatchesActiveEvent hv <|
      ends_assertMatchesActiveEvent.2 fun hevent _ => ?_
    refine Confines.bind <| confines_deleteInvitation hv (fun x hx => ?_) fun _ _ hu =>
      confines_ok hu fun _ => ih (fun j hj => hE j (List.mem_cons_of_mem _ hj)) hu
    obtain rfl := Option.some.inj (hr.symm.trans hx)
    exact hE id List.mem_cons_self _ hevent

theorem deleteMany_isolated {ids : List Nat} {activeEventId : Option EventId}
    (hE : ∀ id ∈ ids, ∀ e, activeEventId = some e → E id e) :
    Isolated R E (deleteMany ids activeEventId) s :=
  .ite isolated_ret <| within_confines hR fun t _ =>
    (confines_deleteMany hE (.refl t)).weaken fun _ _ _ hu => hu

theorem updatePlusOneLimit_isolated {input : UpdateInvitationPlusOneLimitInput}
    {activeEventId : Option EventId} (hE : ∀ e, activeEventId = some e → E input.id e) :
    Isolated R E (updatePlusOneLimit input activeEventId) s := by
  refine .ite isolated_ret (within_confines hR fun t _ => ?_)
  have hrefl : Stays R E t t := .refl t
  refine Confines.bind <| confines_look looks_ensureExists hrefl <|
    ends_ensureExists.2 fun r hr _ => ?_
  refine Confines.bind <| confines_look looks_assertMatchesActiveEvent hrefl <|
    ends_assertMatchesActiveEvent.2 fun hevent _ => ?_
  dsimp only
  split
  · exact confines_error hrefl
  · refine Confines.bind <| confines_look (Block.looks_call fun _ => rfl) hrefl <|
      ends_countInvitations.2 fun _ => ?_
    split
    · exact confines_error hrefl
    · have hid : r.id = input.id := t.db.invitations.id_eq hr
      refine confines_updateInvitation hrefl (fun x hx => ?_) fun _ _ hu => hu
      rw [hid] at hx ⊢
      obtain rfl := Option.some.inj (hr.symm.trans hx)
      exact hE _ hevent

theorem bulkApprove_isolated {items : List ApproveInvitationDataInput} {approved : Bool}
    {user : UserId} {activeEventId : Option EventId}
    (hE : ∀ x ∈ items, ∀ e, activeEventId = some e → E x.invitationId e) :
    Isolated R E (bulkApprove cfg ctx items approved user activeEventId) s :=
  isolated_forM fun x hx _ _ => (approve_isolated hR (hE x hx)).seq fun _ _ _ => isolated_ret

theorem resendGuestConfirmations_isolated {ids : List Nat} {locale : Option Locale} {user : UserId}
    {activeEventId : Option EventId} (hE : ∀ id ∈ ids, ∀ e, activeEventId = some e → E id e) :
    Isolated R E (resendGuestConfirmations cfg ctx ids locale user activeEventId) s := by
  refine isolated_forM fun id hid t _ => ?_
  simp only [liftM_eq]
  refine isolated_checked hR (hE id (List.mem_eraseDups.1 hid)) fun u e _ h => ?_
  exact (GuestConfirmation.resendConfirmation_isolated hR h.mine).seq fun _ _ _ => isolated_ret

omit hR in
theorem ends_stageGuard_event {staged : Bool} {activeEventId : Option EventId} {w : World}
    {K : Unit → World → Prop} (h : activeEventId = some r.eventId → K () w) :
    (stageGuard staged activeEventId r).Ends K w := by
  simp only [stageGuard, Prog.ends_bind, ends_assertMatchesActiveEvent]
  intro hevent
  split
  · trivial
  · exact h hevent

omit hR in
theorem ends_stageGuards_event {staged : Bool} {activeEventId : Option EventId}
    {rs : List Invitation} {w : World} {K : PUnit → World → Prop}
    (h : (∀ r ∈ rs, activeEventId = some r.eventId) → K () w) :
    (rs.forM (stageGuard staged activeEventId)).Ends K w := by
  induction rs with
  | nil => exact h (by simp)
  | cons r rs ih =>
    rw [Prog.forM_cons, Prog.ends_bind]
    exact ends_stageGuard_event fun hr => ih fun hrs => h (List.forall_mem_cons.2 ⟨hr, hrs⟩)

theorem confines_stageAll {staged : Bool} {rs : List Invitation} {v w : World}
    (hrs : ∀ r ∈ rs, Belongs R E r.id r.eventId s) (hw : R s w) (hv : Stays R E w v) :
    Confines R E w (rs.forM fun r => do
      let _ ← updateInvitation r.id { status := some (stagedStatus staged r) } :
      Query Unit) (fun _ _ => True) v := by
  induction rs generalizing v with
  | nil => exact confines_ok hv trivial
  | cons r rs ih =>
    rw [Prog.forM_cons]
    refine Confines.bind <| Confines.bind <| confines_updateInvitation hv (fun x hx =>
      ?_) fun _ _ hu =>
      confines_ok hu fun _ => ih (fun y hy => hrs y (List.mem_cons_of_mem _ hy)) hu
    rcases hv.invitations.row _ _ hx with hx | ⟨hE, -⟩
    · have h := hrs r List.mem_cons_self
      rw [h.row hR hw hx]
      exact h.1
    · exact hE

theorem bulkStage_isolated {ids : List Nat} {staged : Bool} {activeEventId : Option EventId}
    (hE : ∀ id ∈ ids, ∀ e, activeEventId = some e → E id e) :
    Isolated R E (bulkStage ids staged activeEventId) s := by
  unfold bulkStage
  simp only [liftM_eq]
  refine Prog.Within.bind <| within_look (K := fun rs t => Carries R s t ∧
    ∀ r ∈ rs, Belongs R E r.id r.eventId t) hR (looks_readStaged _ _ _) (fun t _ ht => ?_) |>.weaken
      fun rs t ⟨ht, hrs⟩ => ?_
  · simp only [Prog.ends_bind, ends_findManyInvitations]
    split
    · trivial
    · rw [Prog.ends_bind]
      refine ends_stageGuards_event fun hevents _ => ⟨ht, fun r hr => ?_⟩
      obtain ⟨hrow, hid⟩ := InvitationTable.mem_select.1 hr
      exact .of_row hrow (hE r.id (of_decide_eq_true hid) _ (hevents r hr))
  · exact within_confines hR fun u hu =>
      (confines_stageAll hR hrs hu (.refl u)).weaken fun _ _ _ hc => ht.trans hc

section

variable {n : Nat} {user : UserId}

theorem create_isolated {input : InvitationCreateInput}
    (hn : Known R (fun v => n ≤ v.db.invitations.next) s)
    (hE : ∀ j e, n ≤ j → input.eventId = some e → E j e) :
    Isolated R E (create cfg ctx input (some user)) s := by
  unfold create
  cases he : input.eventId with
  | none => exact isolated_ret
  | some e =>
    simp only [liftM_eq]
    refine .ite isolated_ret ?_
    refine (isolated_look hR (Block.looks_call fun _ => rfl)).seq fun settings t ht => ?_
    have hcreate : (Query.transaction do
        let invitation ← createInvitation (createdInvitation cfg input e settings (some user))
        enqueue ctx "invitation.created.v1"
          (invitationCreated invitation (some user) invitation.invitedByInvitationId.isSome)
        return invitation).Within R (Stays R E) (fun created u => Carries R t u ∧
          Known R (fun v => v.row created.id = some created) u ∧
            E created.id created.eventId) t := by
      refine within_confines hR fun u hu => ?_
      have hEnew : E u.db.invitations.next e := hE _ e (hR.next_le (ht _ hn) hu) he
      refine Confines.bind <| confines_createInvitation (.refl u) hEnew fun hp hv => ?_
      refine Confines.bind <| confines_enqueue hv (.inr ⟨Nat.le_refl _, e, hEnew⟩) fun x hw =>
        confines_ok hw fun hc => ⟨hc, .of_now ?_, hEnew⟩
      exact InvitationTable.insert_row_next
        (r := (createdInvitation cfg input e settings (some user)).stamped u.now) hp
    refine Prog.Within.bind <| hcreate.weaken fun created u ⟨hu, hrow, hE⟩ => ?_
    refine Prog.Within.weaken (Isolated.seq (isolated_send hR fun v hv => ?_)
      fun _ _ _ => isolated_ret) fun _ _ hv => hu.trans hv
    exact hrow.has hE ⟨rfl, rfl⟩ hv

theorem importRow_isolated {firstName lastName : String} {cell : Option Cell}
    (hn : Known R (fun v => n ≤ v.db.invitations.next) s) (hE : ∀ j, n ≤ j → E j e) :
    Isolated R E (importRow ctx e user firstName lastName cell) s := by
  unfold importRow
  refine within_confines hR fun u hu => ?_
  split
  · exact confines_error (.refl u)
  · have hEnew : E u.db.invitations.next e := hE _ (hR.next_le hn hu)
    dsimp only
    split
    · exact Confines.bind <| confines_createInvitation (.refl u) hEnew fun hp hv =>
        confines_enqueue hv (.inr ⟨Nat.le_refl _, e, hEnew⟩) fun _ hc => hc
    · exact confines_error (.refl u)

theorem importRows_isolated {rows : List (CanonicalField → Option Cell)} {existingSet : List String}
    (hn : Known R (fun v => n ≤ v.db.invitations.next) s) (hE : ∀ j, n ≤ j → E j e) :
    Isolated R E (importRows ctx e user rows existingSet) s := by
  induction rows generalizing existingSet s with
  | nil => exact isolated_ret
  | cons row rows ih =>
    unfold importRows
    refine .ite ((ih hn).seq fun _ _ _ => isolated_ret) ?_
    exact (importRow_isolated hR hn hE).seq fun _ t ht =>
      (ih (ht _ hn)).seq fun _ _ _ => isolated_ret

theorem importInvitations_isolated {uploadType : String} {sheet : Option Sheet}
    (hn : Known R (fun v => n ≤ v.db.invitations.next) s) (hE : ∀ j, n ≤ j → E j e) :
    Isolated R E (importInvitations cfg ctx e uploadType sheet user) s := by
  have hread : (readSheet uploadType sheet).Looks := by
    unfold readSheet
    split
    · exact Prog.looks_ret _
    · split
      · split <;> exact Prog.looks_ret _
      · exact Prog.looks_ret _
  unfold importInvitations
  simp only [liftM_eq]
  refine (isolated_look hR (Block.looks_call fun _ => rfl)).seq fun _ t ht => ?_
  refine (isolated_look hR hread).seq fun sheet u hu => .ite isolated_ret ?_
  refine (isolated_look hR (Block.looks_call fun _ => rfl)).seq fun existing v hv => ?_
  exact (importRows_isolated hR (hv _ (hu _ (ht _ hn))) hE).seq fun _ _ _ => isolated_ret

end
end AdminWrite
end
end InvitationService

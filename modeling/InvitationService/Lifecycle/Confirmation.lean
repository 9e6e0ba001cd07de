import InvitationService.Lifecycle.Rules

namespace InvitationService

open Resumption Query

abbrev Conforms (R : World → World → Prop) (cfg : Config) (c : Call) (a : World)
    (p : Program α) (s : World) : Prop :=
  p.Within R (Action R cfg c a) (fun _ _ => True) s

variable {R : World → World → Prop} {cfg : Config} {ctx : Context} {c : Call} {a s : World}
  {i : Nat}

theorem conforms_hush (hR : Stable R cfg c a) {b : Query α} (hb : b.Moves Hush) :
    Conforms R cfg c a (perform b) s :=
  within_hush hR hb fun _ _ => (Prog.ends_true b).mono fun _ _ _ _ => trivial

theorem Conforms.seq {p : Program α} {g : α → Program β} (hp : Conforms R cfg c a p s)
    (hg : ∀ x t, Conforms R cfg c a (g x) t) : Conforms R cfg c a (p >>= g) s :=
  Prog.Within.bind <| Prog.Within.weaken hp fun x t _ => hg x t

theorem Conforms.ite {P : Prop} [Decidable P] {p q : Program α} (hp : Conforms R cfg c a p s)
    (hq : Conforms R cfg c a q s) : Conforms R cfg c a (if P then p else q) s := by
  split
  · exact hp
  · exact hq

theorem conforms_forM {β : Type} {g : β → Program PUnit} {xs : List β}
    (h : ∀ x ∈ xs, ∀ t, Conforms R cfg c a (g x) t) : Conforms R cfg c a (xs.forM g) s :=
  Prog.Within.weaken (Prog.within_forM (K := fun _ => True)
    (fun x hx t _ => h x hx t) trivial) fun _ _ _ => trivial

namespace GuestConfirmation

theorem resolvePendingContactPayload_within (hR : Stable R cfg c a) {r : Invitation} :
    (resolvePendingContactPayload r).Within R (Action R cfg c a)
      (fun o u => (o = none ∨ ∃ stored, o = some stored ∧ Known R (StoredContact r stored) u) ∧
        Carries R s u) s := by
  unfold resolvePendingContactPayload
  split
  · rename_i stored hp
    exact ⟨.inr ⟨stored, rfl, .of_always fun _ => .inl hp⟩, fun _ h => h⟩
  · exact ⟨.inl rfl, fun _ h => h⟩
  · rename_i token hp ht
    rw [liftM_eq]
    refine within_hush hR hush_cacheGet fun t _ => ends_cacheGet.2 fun hc => ⟨?_, hc⟩
    cases ho : t.pendingContact token with
    | none => exact .inl rfl
    | some stored => exact .inr ⟨stored, rfl, .of_now (.inr ⟨token, hp, ht, ho⟩)⟩

theorem scheduleReminders_conforms (hR : Stable R cfg c a) {actorId : Option UserId} :
    Conforms R cfg c a (scheduleReminders cfg i actorId) s := by
  unfold scheduleReminders
  simp only [liftM_eq]
  refine (conforms_hush hR hush_findInvitation).seq fun invitation t => ?_
  refine Conforms.seq ?_ fun settings t => ?_
  · cases invitation with
    | none => trivial
    | some r => exact conforms_hush hR hush_findSettings
  · refine (conforms_hush hR hush_clock).seq fun now t => ?_
    split
    · exact conforms_forM fun x _ t => conforms_hush hR hush_remind
    · split
      · trivial
      · exact conforms_hush hR hush_remind

theorem persistSend_within {r : Invitation} {payload : PendingUser} {token : Nat} {inc : Bool}
    (hR : Stable R cfg c a) (hr : Known R (fun v => v.row i = some r) s)
    (hg : r.guestProfileId = none) (hs : actionable r.status = true)
    (hp : Known R (fun v => ∃ stored locale,
      payload = overrideLocale stored locale ∧ StoredContact r stored v) s)
    (ht : Known R (fun v => v.pendingContact token = some payload ∧ token < v.nextToken) s)
    (hi : inc = true → c.Resends ∧ truthy payload.seatId = true) :
    (perform (persistSend i token payload inc)).Within R (Action R cfg c a)
      (fun _ u => Carries R s u) s := by
  refine within_act fun t hst => ?_
  simp only [persistSend, Prog.post_bind, post_clock, post_updateInvitation]
  refine ⟨Hush.refl t, fun r' hr' => ?_, fun _ => Hush.refl t⟩
  have hA : Action R cfg c a t (t.setInvitations
      (t.db.invitations.patch i (sendUpdate token payload t.now inc) t.now)) :=
    .step (Side.of_eq rfl rfl rfl rfl)
      (.send (hr t hst) hg hs (hp t hst) (ht t hst) hi) (by simp) rfl rfl rfl
  refine ⟨hA, hR.carries hst hA ?_⟩
  refine .of_side (Side.of_eq rfl rfl rfl rfl) rfl (fun j => ?_) rfl rfl rfl
  by_cases hj : j = i
  · subst hj
    rw [World.setInvitations_row, InvitationTable.patch_row_self]
    simp [hr', core_sendUpdate]
  · rw [World.setInvitations_row, InvitationTable.patch_row_of_ne hj]

def MaySend (R : World → World → Prop) (c : Call) (i : Nat) (s : World) : Prop :=
  (∃ e seatId actorId locale, c = .job (.generateTicket i e seatId actorId locale)) ∨
  ∃ x settings now, Known R (fun v => v.row i = some x) s ∧
    Known R (fun v => v.db.settings x.eventId = settings) s ∧ Known R (fun v => v.now = now) s ∧
    ∀ releaseAt, settings.bind EventSettings.releaseAt = some releaseAt → releaseAt ≤ now

theorem MaySend.carry {t : World} (h : MaySend R c i s) (hC : Carries R s t) : MaySend R c i t :=
  h.imp id fun ⟨x, settings, now, hx, hset, hnow, hrel⟩ =>
    ⟨x, settings, now, hC _ hx, hC _ hset, hC _ hnow, hrel⟩

theorem MaySend.released {t : World} (h : MaySend R c i s) (hst : R s t) :
    Released R c i t.now t :=
  h.imp (fun hjob => ⟨Nat.le_refl _, hjob⟩) fun ⟨x, settings, now, hx, hset, hnow, hrel⟩ =>
    ⟨x, settings, now, hx t hst, hset t hst, hnow t hst, fun releaseAt ha => by
      rw [Nat.sub_eq_zero_of_le (hrel releaseAt ha)]
      exact Nat.le_refl _⟩

theorem emitConfirmGuest_conforms {r : Invitation} {payload : PendingUser} {token : Nat}
    {seatId : Option SeatId} {actorId : Option UserId} {operation : String}
    (hr : Known R (fun v => v.row i = some r) s) (hi : r.id = i)
    (hg : r.guestProfileId = none) (hs : actionable r.status = true)
    (hp : Known R (fun v => ∃ stored locale,
      payload = overrideLocale stored locale ∧ StoredContact r stored v) s)
    (ht : Known R (fun v => v.pendingContact token = some payload ∧ token < v.nextToken) s)
    (hseat : (c.Gives i seatId ∧ ((∃ p, c = .seatReserved p) ∨ truthy seatId = true)) ∨
      (payload.seatId = seatId ∧ truthy seatId = true))
    (hrel : (∃ p, c = .seatReserved p) ∨ (payload.seatId = seatId ∧ truthy seatId = true) ∨
      MaySend R c i s) :
    Conforms R cfg c a
      (perform (emitConfirmGuest cfg ctx r token seatId actorId operation)) s := by
  refine within_act fun t hst => ?_
  simp only [emitConfirmGuest, Prog.post_bind, post_clock, post_send]
  subst hi
  exact ⟨Hush.refl t, .confirm (hr t hst) hg hs (hp t hst) (ht t hst) hseat
    (hrel.imp id fun h => h.imp id fun h => h.released hst), trivial⟩

theorem sendFirstConfirmation_conforms (hR : Stable R cfg c a) {seatId : Option SeatId}
    {actorId : Option UserId} {locale : Option Locale}
    (hseat : c.Gives i seatId ∧ ((∃ p, c = .seatReserved p) ∨ truthy seatId = true))
    (hrel : (∃ p, c = .seatReserved p) ∨ MaySend R c i s) :
    Conforms R cfg c a (sendFirstConfirmation cfg ctx i seatId actorId locale) s := by
  unfold sendFirstConfirmation
  simp only [liftM_eq]
  refine Prog.Within.bind <| within_find hR fun t _ ht => ?_
  have hrel : (∃ p, c = .seatReserved p) ∨ MaySend R c i t := hrel.imp id fun h => h.carry ht
  cases hr : t.row i with
  | none => trivial
  | some r =>
    dsimp only
    split
    · trivial
    · split
      · trivial
      · split
        · trivial
        · rename_i hg hs _
          have hg : r.guestProfileId = none := by simpa using hg
          have hs : actionable r.status = true := by simpa using hs
          have hr₀ : Known R (fun v => v.row i = some r) t := .of_now hr
          refine Prog.Within.bind <| (resolvePendingContactPayload_within hR).weaken
            fun o u h => ?_
          obtain ⟨rfl | ⟨stored, rfl, hstored⟩, hu⟩ := h
          · trivial
          · refine Prog.Within.bind <| within_hush hR hush_cacheSet fun v _ => ?_
            rw [ends_cacheSet]
            intro hv
            refine Prog.Within.bind <| (persistSend_within hR (hv _ (hu _ hr₀)) hg hs
              ((hv _ hstored).weaken fun _ h => ⟨stored, locale, rfl, h⟩)
              (.of_now ⟨World.cachePending_self .., Nat.lt_succ_self _⟩)
              (by simp)).weaken fun _ x hx => ?_
            refine Conforms.seq ?_ fun _ y =>
              (scheduleReminders_conforms hR).seq fun _ _ => trivial
            exact emitConfirmGuest_conforms (hx _ (hv _ (hu _ hr₀))) (t.db.invitations.id_eq hr)
              hg hs (hx _ ((hv _ hstored).weaken fun _ h => ⟨stored, locale, rfl, h⟩))
              (hx _ (.of_now ⟨World.cachePending_self .., Nat.lt_succ_self _⟩)) (.inl hseat)
              (hrel.imp id fun h => .inr (((h.carry hu).carry hv).carry hx))

theorem requestSeatReservation_conforms (hR : Stable R cfg c a) {actorId : Option UserId} :
    Conforms R cfg c a (requestSeatReservation cfg ctx i actorId) s := by
  unfold requestSeatReservation
  simp only [liftM_eq]
  refine (conforms_hush hR hush_findInvitation).seq fun o t => ?_
  cases o with
  | none => trivial
  | some r =>
    exact .ite trivial (.ite trivial
      ((conforms_hush hR (hush_send (by trivial))).seq fun _ _ => trivial))

theorem sendFirstConfirmationOrReserve_conforms (hR : Stable R cfg c a) {seatId : Option SeatId}
    {actorId : Option UserId} {locale : Option Locale}
    (hseat : truthy seatId = true → c.Gives i seatId) (hrel : MaySend R c i s) :
    Conforms R cfg c a (sendFirstConfirmationOrReserve cfg ctx i seatId actorId locale) s := by
  unfold sendFirstConfirmationOrReserve
  split
  · rename_i ht
    exact sendFirstConfirmation_conforms hR ⟨hseat ht, .inr ht⟩ (.inr hrel)
  · exact requestSeatReservation_conforms hR

theorem recordResentAnalytics_conforms : Conforms R cfg c a (recordResentAnalytics ctx i) s :=
  within_tx moves_enqueue fun t _ => ends_enqueue.2 fun tenantId _ _ =>
    ⟨.step (Side.of_eq rfl rfl rfl rfl) (.same fun p => by simp) rfl rfl rfl rfl, trivial⟩

theorem resendConfirmation_conforms (hR : Stable R cfg c a) (hc : c.Resends)
    {actorId : Option UserId} {locale : Option Locale} :
    Conforms R cfg c a (resendConfirmation cfg ctx i actorId locale) s := by
  unfold resendConfirmation
  simp only [liftM_eq]
  refine Prog.Within.bind <| within_find hR fun t _ _ => ?_
  cases hr : t.row i with
  | none => trivial
  | some r =>
    dsimp only
    split
    · trivial
    · split
      · trivial
      · rename_i hg hs
        have hg : r.guestProfileId = none := by simpa using hg
        have hs : actionable r.status = true := by simpa using hs
        have hr₀ : Known R (fun v => v.row i = some r) t := .of_now hr
        have hafter : ∀ t, Conforms R cfg c a (do
            recordResentAnalytics ctx i
            perform (note (.resent i))
            pure ResendConfirmationResult.resent) t := fun t =>
          recordResentAnalytics_conforms.seq fun _ _ =>
            Conforms.seq (within_act fun u _ => post_note.2 ⟨.resent hc, trivial⟩)
              fun _ _ => trivial
        refine Prog.Within.bind <| within_hush hR hush_clock fun u _ => ends_clock.2 fun hu => ?_
        split
        · trivial
        · split
          · trivial
          · rename_i stored hstored
            refine Prog.Within.bind <| within_hush hR hush_inResendCooldown fun v _ =>
              ends_inResendCooldown.2 fun hv => ?_
            split
            · trivial
            · refine Prog.Within.bind <| within_hush hR hush_setResendCooldown fun w _ =>
                (Prog.ends_true _).mono fun _ x _ hx => ?_
              split
              · rename_i hseat
                refine Prog.Within.bind <| within_hush hR hush_cacheSet fun y _ => ?_
                rw [ends_cacheSet]
                intro hy
                have hrow := hy _ (hx _ (hv _ (hu _ hr₀)))
                refine Prog.Within.bind <| (persistSend_within hR hrow hg hs
                  (.of_always fun _ => ⟨stored, locale, rfl, .inl hstored⟩)
                  (.of_now ⟨World.cachePending_self .., Nat.lt_succ_self _⟩)
                  fun _ => ⟨hc, hseat⟩).weaken fun _ z hz => ?_
                refine Conforms.seq ?_ fun _ => hafter
                exact emitConfirmGuest_conforms (hz _ hrow) (t.db.invitations.id_eq hr) hg hs
                  (.of_always fun _ => ⟨stored, locale, rfl, .inl hstored⟩)
                  (hz _ (.of_now ⟨World.cachePending_self .., Nat.lt_succ_self _⟩))
                  (.inr ⟨rfl, hseat⟩) (.inr (.inl ⟨rfl, hseat⟩))
              · exact (requestSeatReservation_conforms hR).seq fun _ => hafter

theorem requestPublicResend_conforms (hR : Stable R cfg c a) (hc : c.Resends)
    {input : RequestGuestConfirmationInput} {locale : Locale} :
    Conforms R cfg c a (requestPublicResend cfg ctx input locale) s := by
  unfold requestPublicResend
  simp only [liftM_eq]
  refine .ite trivial (.ite trivial ?_)
  refine (conforms_hush hR hush_findManyInvitations).seq fun rs t => ?_
  split
  · exact (resendConfirmation_conforms hR hc).seq fun _ _ => trivial
  · trivial

end GuestConfirmation
end InvitationService

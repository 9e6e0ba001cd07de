import InvitationService.Lib.Joint
import InvitationService.Lifecycle.Interleaving

namespace InvitationService

open Resumption Query
open Prog (Along Others)

variable {cfg : Config} {ctx : Context} {l l' : List (Turn Nat)} {i now : Nat} {u : UserId}
  {e : EventId} {r x : Invitation} {g : Option UserId} {b : Prop} {s t w : World}

/-! An approval, and the link of the guest that lands between its steps. -/

/-- The effect lets the guest `u` of invitation `i` in: access to the event, a link, a request for a
seat, or the job that will see to it. -/
def Effect.Reaches (i : Nat) (e : EventId) (u : UserId) : Effect → Prop
  | .granted e' u' _ => e' = e ∧ u' = u
  | .produced (.confirmGuest j ..) _ _ => j = i
  | .produced (.seatReserve payload) _ _ => payload.invitationId = i
  | .scheduled (.generateTicket j ..) _ => j = i
  | _ => False

/-- Since `w`, something reached the guest. -/
def Reached (i : Nat) (e : EventId) (u : UserId) (w t : World) : Prop :=
  ∃ m, t.journal = m ++ w.journal ∧ ∃ x ∈ m, x.Reaches i e u

/-- A move of the environment, by the time that it is afterwards. -/
def Clock (now : Nat) (s t : World) : Prop := World.Environment s t ∧ t.now = now

def Links (i : Nat) (u : UserId) (s t : World) : Prop :=
  ∃ c n, (updateManyInvitations i (fun _ => true) { guestProfileId := some (some u) }).run c s =
    (.ok n, t)

/-- The guest of the row when `approve` takes its step `n`, with `g` the guest before. -/
def guestAt (u : UserId) (l : List (Turn Nat)) (g : Option UserId) (n : Nat) : Option UserId :=
  if Turn.overtakes l n then some u else g

def Delayed (settings : Option EventSettings) (now : Nat) : Prop :=
  ∃ releaseAt, (settings.bind fun s =>
      if s.scheduleTicketRelease then s.ticketReleaseAt else none) =
    some releaseAt ∧ now < releaseAt

def Invitation.unlinked (r : Invitation) : Invitation :=
  { r with guestProfileId := none, updatedAt := none }

/-- A state between two steps of `approve`, which began in `w`; `b` says whether anything has
reached the guest. -/
structure Point (i : Nat) (u : UserId) (e : EventId) (w : World) (r : Invitation)
    (g : Option UserId) (now : Nat) (b : Prop) (t : World) : Prop where
  row : ∃ x, t.row i = some x ∧ x.unlinked = r.unlinked ∧ x.guestProfileId = g
  settings : t.db.settings = w.db.settings
  now_eq : t.now = now
  journal : ∃ m, t.journal = m ++ w.journal ∧ ((∃ x ∈ m, x.Reaches i e u) ↔ b)

theorem Links.eq (h : Links i u s t) (hr : s.row i = some r) : t = s.setInvitations
    (s.db.invitations.patch i { guestProfileId := some (some u) } s.now) := by
  obtain ⟨c, n, hrun⟩ := h
  have hends : (updateManyInvitations i (fun _ => true) { guestProfileId := some (some u) }).Ends
      (fun _ t => t = s.setInvitations
        (s.db.invitations.patch i { guestProfileId := some (some u) } s.now)) s :=
    ends_updateManyInvitations.2 ⟨fun _ => rfl, fun h => by rw [hr] at h; cases h⟩
  have ht := Prog.Post.run hends c
  rw [hrun] at ht
  exact ht

namespace Point

theorem reached_iff (h : Point i u e w r g now b t) : Reached i e u w t ↔ b := by
  obtain ⟨m, hm, hb⟩ := h.journal
  refine ⟨fun ⟨m', hm', hx⟩ => ?_, fun hx => ⟨m, hm, hb.2 hx⟩⟩
  obtain rfl : m' = m := List.append_cancel_right (hm'.symm.trans hm)
  exact hb.1 hx

theorem clock (h : Point i u e w r g now b s) {n : Nat} (hst : Clock n s t) :
    Point i u e w r g n b t where
  row := by
    unfold World.row
    rw [environment_db hst.1]
    exact h.row
  settings := by rw [environment_db hst.1, h.settings]
  now_eq := hst.2
  journal := by rw [environment_journal hst.1]; exact h.journal

theorem links (h : Point i u e w r g now b s) (hst : Links i u s t) :
    Point i u e w r (some u) now b t := by
  obtain ⟨x, hx, hxr, -⟩ := h.row
  obtain rfl := hst.eq hx
  refine ⟨⟨({ guestProfileId := some (some u) } : InvitationUpdate).apply s.now x, ?_, ?_, rfl⟩,
    h.settings, h.now_eq, h.journal⟩
  · rw [World.setInvitations_row, InvitationTable.patch_row_self,
      show s.db.invitations.row i = some x from hx]
    rfl
  · rw [← hxr]
    simp [Invitation.unlinked, InvitationUpdate.apply, CountUpdate.apply]

theorem others (h : Point i u e w r g now b s)
    (hst : Others Clock (Links i u) (.first :: l') l s t) :
    Point i u e w r (guestAt u l g 0) (Turn.latest l now 0) b t := by
  induction hst generalizing g now with
  | refl => exact h
  | env he _ ih => exact ih (h.clock he)
  | @second l s t v hl _ ih =>
    have ht := ih (h.links hl)
    unfold guestAt at ht ⊢
    rw [ite_self] at ht
    exact ht

theorem log (h : Point i u e w r g now b t) (x : Effect) :
    Point i u e w r g now (x.Reaches i e u ∨ b) (t.log x) where
  row := h.row
  settings := h.settings
  now_eq := h.now_eq
  journal := by
    obtain ⟨m, hm, hb⟩ := h.journal
    refine ⟨x :: m, congrArg (x :: ·) hm, ?_⟩
    simp only [List.mem_cons, exists_eq_or_imp, hb]

theorem congr (h : Point i u e w r g now b t) {b' : Prop} (hb : b ↔ b') :
    Point i u e w r g now b' t := propext hb ▸ h

theorem note (h : Point i u e w r g now b t) {x : Effect} (hx : ¬ x.Reaches i e u) :
    Point i u e w r g now b (t.log x) := by
  have := h.log x
  rwa [eq_false hx, false_or] at this

end Point

theorem guestAt_succ {n : Nat} (h : Others Clock (Links i u) (.first :: l') l s t) :
    guestAt u l g (n + 1) = guestAt u l' (guestAt u l g 0) n := by
  unfold guestAt
  rw [h.overtakes_succ]
  cases Turn.overtakes l 0 <;> simp

theorem guestAt_ne_none {n : Nat} (h : g ≠ none) : guestAt u l g n ≠ none := by
  unfold guestAt
  split
  · simp
  · exact h

theorem latest_succ {n : Nat} (h : Others Clock (Links i u) (.first :: l') l s t) :
    Turn.latest l now (n + 1) = Turn.latest l' (Turn.latest l now 0) n := h.latest_succ

theorem Point.along_ret {α : Type} {y : α} (h : Point i u e w r g now b s) :
    Along Clock (Links i u) l (pure y : Program α) (fun _ t => Reached i e u w t ↔ b) s := by
  suffices H : ∀ g now s, Point i u e w r g now b s →
      Along Clock (Links i u) l (pure y : Program α) (fun _ t => Reached i e u w t ↔ b) s from
    H g now s h
  clear h
  induction l with
  | nil => exact fun _ _ _ h => h.reached_iff
  | cons a l ih =>
    intro g now s h
    cases a with
    | first => trivial
    | second => exact fun t hst => ih _ _ t (h.links hst)
    | env n => exact fun t hst => ih _ _ t (h.clock hst)

theorem stable_onward {c : Call} {a : World} : Stable Onward cfg c a where
  trans := Onward.trans
  next_le := Onward.next
  absorb h hA _ := h.trans (.of_action hA)

theorem Reached.onward (h : Reached i e u w s) (hst : Onward s t) : Reached i e u w t := by
  obtain ⟨m, hm, x, hx, hr⟩ := h
  obtain ⟨m', hm'⟩ := hst.journal
  exact ⟨m' ++ m, by rw [hm', hm, List.append_assoc], x, List.mem_append_right _ hx, hr⟩

theorem Links.onward (h : Links i u s t) : Onward s t := by
  obtain ⟨c, n, hrun⟩ := h
  have hA : Action (fun _ _ => True) plainConfig (.addGuestId i u) s s (s.setInvitations
      (s.db.invitations.patch i { guestProfileId := some (some u) } s.now)) :=
    .step (o := []) (Side.of_eq rfl rfl rfl rfl) (.link rfl) (by simp) rfl rfl rfl
  have hends : (updateManyInvitations i (fun _ => true) { guestProfileId := some (some u) }).Ends
      (fun _ t => Onward s t) s :=
    ends_updateManyInvitations.2 ⟨fun _ => .of_action hA, fun _ => .refl s⟩
  have ht := Prog.Post.run hends c
  rw [hrun] at ht
  exact ht

theorem along_of_within {α : Type} {p : Program α} (hp : p.Within Onward (fun _ _ => True)
      (fun _ t => Reached i e u w t) s) :
    Along Clock (Links i u) l p (fun _ t => Reached i e u w t) s :=
  hp.along (.refl s) .refl (fun _ _ _ h k => h.trans k) (fun _ _ _ h => .of_environment h.1)
    (fun _ _ h => h.onward) fun _ _ _ h hst => h.onward hst

def Past (w t : World) : Prop := ∃ m, t.journal = m ++ w.journal

theorem Past.onward (h : Past w s) (hst : Onward s t) : Past w t := by
  obtain ⟨m, hm⟩ := h
  obtain ⟨m', hm'⟩ := hst.journal
  exact ⟨m' ++ m, by rw [hm', hm, List.append_assoc]⟩

theorem past_within {α : Type} {q : Query α} (hq : q.Moves Side) (h : Past w s) :
    (perform q).Within Onward (fun _ _ => True) (fun _ t => Past w t) s :=
  within_perform_of_moves hq (fun _ _ _ => trivial) fun t hst => (Prog.ends_true q).mono
    fun _ u _ hside => by
      obtain ⟨m, hm⟩ := h.onward hst
      obtain ⟨m', hm', -⟩ := hside.journal
      exact ⟨m' ++ m, by rw [hm', hm, List.append_assoc]⟩

namespace GuestConfirmation

theorem emitConfirmGuest_reaches {token : Nat} {seatId : Option SeatId} {actorId : Option UserId}
    {operation : String} (hid : r.id = i) (h : Past w s) :
    (perform (emitConfirmGuest cfg ctx r token seatId actorId operation)).Within Onward
      (fun _ _ => True) (fun _ t => Reached i e u w t) s := by
  refine within_perform fun t hst => ?_
  simp only [emitConfirmGuest, Prog.post_bind, post_clock, post_send]
  obtain ⟨m, hm⟩ := h.onward hst
  exact ⟨trivial, trivial, _ :: m, congrArg (_ :: ·) hm, _, List.mem_cons_self, hid⟩

theorem scheduleReminders_reached {actorId : Option UserId} (h : Reached i e u w s) :
    (scheduleReminders cfg i actorId).Within Onward (fun _ _ => True)
      (fun _ t => Reached i e u w t) s := by
  have hc : Conforms Onward cfg (.addGuestId i u) s (scheduleReminders cfg i actorId) s :=
    scheduleReminders_conforms stable_onward
  have hi := Prog.Guarantees.invariant hc h (fun _ _ h hst => h.onward hst)
    fun _ _ h hA => h.onward (.of_action hA)
  refine Prog.Guarantees.mono hi (fun _ _ h => h) (fun _ _ _ => trivial) fun x t ht => ?_
  cases x with
  | ok _ => exact ht.1
  | error _ => trivial

theorem sendFirstConfirmation_reaches {stored : PendingUser} {seatId : Option SeatId}
    {actorId : Option UserId} {locale : Option Locale} (hid : r.id = i)
    (hp : r.pendingContactPayload = some stored) (h : Past w s) :
    (do
      match ← resolvePendingContactPayload r with
      | none => pure false
      | some stored => do
        let token ← perform (cacheSet (overrideLocale stored locale))
        perform (persistSend i token (overrideLocale stored locale) false)
        perform (emitConfirmGuest cfg ctx r token seatId actorId "Send confirm guest notification")
        scheduleReminders cfg i actorId
        pure true : Program Bool).Within Onward (fun _ _ => True)
      (fun _ t => Reached i e u w t) s := by
  have hres : resolvePendingContactPayload r = .ret (.ok (some stored)) := by
    unfold resolvePendingContactPayload
    rw [hp]
    rfl
  rw [hres, Prog.ok_bind]
  dsimp only
  refine Prog.Within.bind <| (past_within (moves_side hush_cacheSet) h).weaken fun token t ht => ?_
  have hsend : (persistSend i token (overrideLocale stored locale) false).Moves Side :=
    (moves_side hush_clock).bind Side.trans fun _ => moves_updateInvitation.bind Side.trans
      fun _ => Prog.moves_ret Side.refl _
  refine Prog.Within.bind <| (past_within hsend ht).weaken fun _ v hv => ?_
  refine Prog.Within.bind <| (emitConfirmGuest_reaches (e := e) (u := u) hid hv).weaken
    fun _ x hx => ?_
  exact Prog.Within.bind <| (scheduleReminders_reached hx).weaken fun _ _ hy => hy

theorem sendFirstConfirmationOrReserve_along {α : Type} {y : α} {seatId : Option SeatId}
    {actorId : Option UserId} {locale : Option Locale} (hs : actionable r.status = true)
    (hid : r.pendingContactId.isSome = true) (hp : r.pendingContactPayload.isSome = true)
    (h : Point i u e w r g now False s) :
    Along Clock (Links i u) l (do
        let _ ← sendFirstConfirmationOrReserve cfg ctx i seatId actorId locale
        pure y : Program α)
      (fun _ t => Reached i e u w t ↔ guestAt u l g 0 = none) s := by
  have hread : ∀ l' t, Others Clock (Links i u) (.first :: l') l s t → ∃ x, t.row i = some x ∧
      x.id = i ∧ actionable x.status = true ∧ x.pendingContactId.isSome = true ∧
      x.pendingContactPayload.isSome = true ∧ x.guestProfileId = guestAt u l g 0 ∧ Past w t := by
    intro l' t ht
    have hpt := h.others ht
    obtain ⟨x, hx, hxr, hg⟩ := hpt.row
    have hstatus : x.status = r.status := congrArg (·.status) hxr
    have hcontact : x.pendingContactId = r.pendingContactId := congrArg (·.pendingContactId) hxr
    have hpayload : x.pendingContactPayload = r.pendingContactPayload :=
      congrArg (·.pendingContactPayload) hxr
    exact ⟨x, hx, t.db.invitations.id_eq hx, hstatus ▸ hs, hcontact ▸ hid, hpayload ▸ hp, hg,
      hpt.journal.imp fun _ h => h.1⟩
  have hlinked : ∀ {l' t}, Others Clock (Links i u) (.first :: l') l s t →
      (guestAt u l g 0).isSome = true →
      Along Clock (Links i u) l' (pure y : Program α)
        (fun _ t => Reached i e u w t ↔ guestAt u l g 0 = none) t := by
    intro l' t ht hsome
    refine ((h.others ht).congr ?_).along_ret
    rw [← Option.not_isSome_iff_eq_none, hsome]
    simp
  unfold sendFirstConfirmationOrReserve
  split
  · -- with a seat the row is read again: a guest who is linked by then gets no confirmation
    unfold sendFirstConfirmation
    simp only [liftM_eq]
    rw [Prog.bind_assoc]
    refine along_perform fun l' t ht => ends_findInvitation.2 ?_
    obtain ⟨x, hx, hxid, hxs, hxc, hxp, hg, hpast⟩ := hread l' t ht
    rw [hx]
    dsimp only
    split
    · rename_i hsome
      exact hlinked ht (hg ▸ hsome)
    · rename_i hnone
      have hnone : guestAt u l g 0 = none := hg ▸ Option.not_isSome_iff_eq_none.1 hnone
      obtain ⟨stored, hstored⟩ := Option.isSome_iff_exists.1 hxp
      rw [if_neg (by simp [hxs]), if_neg (by simp [Option.isSome_iff_ne_none.1 hxc])]
      simp only [hnone, iff_true]
      exact along_of_within <| Prog.Within.bind <| (sendFirstConfirmation_reaches hxid hstored
        hpast).weaken fun _ _ hr => hr
  · -- without one it is read again too, before the seat is requested
    unfold requestSeatReservation
    simp only [liftM_eq]
    rw [Prog.bind_assoc]
    refine along_perform fun l' t ht => ends_findInvitation.2 ?_
    obtain ⟨x, hx, hxid, hxs, -, -, hg, hpast⟩ := hread l' t ht
    rw [hx]
    dsimp only
    split
    · rename_i hsome
      exact hlinked ht (hg ▸ hsome)
    · rename_i hnone
      have hnone : guestAt u l g 0 = none := hg ▸ Option.not_isSome_iff_eq_none.1 hnone
      rw [if_neg (by simp [hxs])]
      simp only [hnone, iff_true]
      refine along_of_within <| Prog.Within.bind <| Prog.Within.bind <| within_perform
        fun v hv => post_send.2 ⟨trivial, trivial, ?_⟩
      obtain ⟨m, hm⟩ := hpast.onward hv
      exact ⟨_ :: m, congrArg (_ :: ·) hm, _, List.mem_cons_self, rfl⟩

end GuestConfirmation

namespace AdminWrite

theorem confirmApproval_along {input : ApproveInvitationDTO} {settings : Option EventSettings}
    (hs : GuestConfirmation.actionable r.status = true)
    (hp : r.pendingContactPayload.isSome = true) (hi : input.id = i)
    (h : Point i u e w r g now False s) :
    Along Clock (Links i u) l (do
        confirmApproval cfg ctx input r settings
        pure r : Program Invitation)
      (fun _ t => Reached i e u w t ↔
        Delayed settings (Turn.latest l now 0) ∨ guestAt u l g 1 = none) s := by
  subst hi
  have hfollow : ∀ l' t, Others Clock (Links input.id u) (.first :: l') l s t →
      r.pendingContactId.isSome = true → ¬ Delayed settings (Turn.latest l now 0) →
      Along Clock (Links input.id u) l' (do
          let _ ← GuestConfirmation.sendFirstConfirmationOrReserve cfg ctx input.id input.seatId
            (some input.actorId) input.locale
          pure r : Program Invitation)
        (fun _ t => Reached input.id e u w t ↔
          Delayed settings (Turn.latest l now 0) ∨ guestAt u l g 1 = none) t := by
    intro l' t ht hid hnd
    simp only [hnd, false_or, guestAt_succ ht]
    exact GuestConfirmation.sendFirstConfirmationOrReserve_along hs hid hp (h.others ht)
  unfold confirmApproval
  simp only [liftM_eq]
  generalize (if r.firstName = "" then ["firstName"] else []) ++
    (if r.lastName = "" then ["lastName"] else []) = missing
  split
  · exact Prog.along_error
  · split
    · exact Prog.along_error
    · rename_i hid
      have hid : r.pendingContactId.isSome = true := by
        simpa [Option.isSome_iff_ne_none] using hid
      rw [Prog.bind_assoc]
      refine along_perform fun l' t ht => ends_clock.2 ?_
      have hpt := h.others ht
      rw [hpt.now_eq]
      split
      · rename_i releaseAt hrelease
        split
        · rename_i hlt
          refine along_perform fun l'' v hv => Block.ends_call.2 fun _ _ => ?_
          refine (((hpt.others hv).log _).congr ?_).along_ret
          exact ⟨fun _ => .inl ⟨releaseAt, hrelease, hlt⟩, fun _ => .inl rfl⟩
        · rename_i hle
          rw [Prog.bind_assoc]
          exact hfollow l' t ht hid fun ⟨x, hx, hlt⟩ => hle (by
            rw [hrelease] at hx
            cases hx
            exact hlt)
      · rename_i hnone
        rw [Prog.bind_assoc]
        exact hfollow l' t ht hid fun ⟨x, hx, _⟩ => by
          rw [hnone] at hx
          cases hx

abbrev afterApproval (cfg : Config) (ctx : Context) (input : ApproveInvitationDTO)
    (updated : Invitation) : Program Invitation := do
  let settings ← perform (findSettings updated.eventId)
  let now ← perform clock
  perform (publishMilestone cfg ctx updated.eventId .approved (updated.approvedAt.getD now)
    updated.id (some input.actorId))
  if updated.guestProfileId.isNone then do
    confirmApproval cfg ctx input updated settings
    pure updated
  else pure updated

theorem afterApproval_along {input : ApproveInvitationDTO}
    (hs : GuestConfirmation.actionable r.status = true)
    (hp : r.pendingContactPayload.isSome = true) (hi : input.id = i)
    (hb : r.guestProfileId = none → ¬ b) (h : Point i u e w r g now b s) :
    Along Clock (Links i u) l (afterApproval cfg ctx input r)
      (fun _ t => Reached i e u w t ↔ b ∨ r.guestProfileId = none ∧
        (Delayed (w.db.settings r.eventId) (Turn.latest l now 3) ∨ guestAt u l g 4 = none)) s := by
  refine along_perform fun l₁ s₁ h₁ => ends_findSettings.2 ?_
  have hpt := h.others h₁
  rw [hpt.settings]
  refine along_perform fun l₂ s₂ h₂ => ends_clock.2 ?_
  have hpt := hpt.others h₂
  refine along_perform fun l₃ s₃ h₃ => ends_send.2 ?_
  have hpt := (hpt.others h₃).note (x := .produced (.milestoneRecorded r.eventId .approved
    (r.approvedAt.getD s₂.now) r.id) (some input.actorId <|> ctx.actorId) (currentTenantId cfg ctx))
    id
  rw [latest_succ h₁, latest_succ h₂, latest_succ h₃, guestAt_succ h₁, guestAt_succ h₂,
    guestAt_succ h₃]
  cases hg : r.guestProfileId with
  | some v =>
    rw [if_neg (by simp)]
    exact (hpt.congr (by simp)).along_ret
  | none =>
    have hfalse : b ↔ False := iff_false_intro (hb hg)
    rw [if_pos (by simp)]
    simp only [hfalse, false_or, true_and]
    exact confirmApproval_along hs hp hi (hpt.congr hfalse)

theorem writeApproval_along {α : Type} {input : ApproveInvitationDTO} {k : Invitation → Program α}
    {K : α → World → Prop} (hi : input.id = i) (h : Point i u e w r g now b s)
    (hk : ∀ l' t x v, Others Clock (Links i u) (.first :: l') l s t →
      x.status = .approved → x.pendingContactPayload = r.pendingContactPayload →
      x.eventId = r.eventId → x.guestProfileId = guestAt u l g 0 →
      Point i u e w x (guestAt u l g 0) (Turn.latest l now 0) b v →
      Along Clock (Links i u) l' (k x) K v) :
    Along Clock (Links i u) l (perform (writeApproval input) >>= k) K s := by
  subst hi
  refine along_perform fun l' t ht => ?_
  simp only [writeApproval, Prog.ends_bind, ends_clock, ends_updateInvitation, ends_note,
    Prog.ends_ok, Prog.pure_eq]
  intro x hx
  have hpt := h.others ht
  obtain ⟨y, hy, hyr, hg⟩ := hpt.row
  obtain rfl : x = y := Option.some.inj (hx.symm.trans hy)
  refine hk l' t _ _ ht rfl (congrArg (·.pendingContactPayload) hyr)
    (congrArg (·.eventId) hyr) hg ?_
  have hrow : (t.setInvitations (t.db.invitations.patch input.id
      (approvalUpdate input.actorId t.now) t.now)).row input.id =
        some ((approvalUpdate input.actorId t.now).apply t.now x) := by
    rw [World.setInvitations_row, InvitationTable.patch_row_self]
    exact congrArg (Option.map _) hx
  have hwritten : Point input.id u e w ((approvalUpdate input.actorId t.now).apply t.now x)
      (guestAt u l g 0) (Turn.latest l now 0) b (t.setInvitations (t.db.invitations.patch input.id
        (approvalUpdate input.actorId t.now) t.now)) :=
    ⟨⟨_, hrow, rfl, hg⟩, hpt.settings, hpt.now_eq, hpt.journal⟩
  exact hwritten.note (x := .approved input.id input.actorId) id

/-- What an approval brings the guest, by the turns at which he is linked. -/
theorem approve_along {input : ApproveInvitationDTO} (ha : input.approve = true)
    (hi : input.id = i) (hp : r.pendingContactPayload.isSome = true)
    (h : Point i u r.eventId w r g now False s) :
    Along Clock (Links i u) l (approve cfg ctx input) (fun _ t => Reached i r.eventId u w t ↔
      guestAt u l g 0 = some u ∨ guestAt u l g 0 = none ∧ guestAt u l g 1 = none ∧
        (Delayed (w.db.settings r.eventId) (Turn.latest l now 5) ∨ guestAt u l g 6 = none)) s := by
  unfold approve
  simp only [liftM_eq]
  refine along_perform fun l₁ s₁ h₁ => ?_
  simp only [Prog.ends_bind, ends_ensureExists]
  intro x hx
  refine ends_approveGuard fun _ _ _ => ?_
  have hpt := h.others h₁
  obtain ⟨y, hy, hyr, hg⟩ := hpt.row
  rw [hi] at hx
  obtain rfl : x = y := Option.some.inj (hx.symm.trans hy)
  refine Prog.ends_ok.2 ?_
  rw [if_pos ha]
  cases hgx : x.guestProfileId with
  | some v =>
    rw [hgx] at hg
    refine along_perform fun l₂ s₂ h₂ => Block.ends_call.2 fun _ _ => ?_
    have hpt := (hpt.others h₂).log (.granted x.eventId v input.actorId)
    refine writeApproval_along hi hpt fun l₃ s₃ x' v' h₃ hs hpay he hgx' hpt => ?_
    have hsome : x'.guestProfileId ≠ none := by
      rw [hgx', ← hg]
      exact guestAt_ne_none (guestAt_ne_none (by simp))
    have hev : x.eventId = r.eventId := congrArg (·.eventId) hyr
    have hcond : (guestAt u l g 0 = some u ∨ guestAt u l g 0 = none ∧ guestAt u l g 1 = none ∧
        (Delayed (w.db.settings r.eventId) (Turn.latest l now 5) ∨ guestAt u l g 6 = none)) ↔
        (Effect.Reaches i r.eventId u (.granted x.eventId v input.actorId) ∨ False) ∨
          x'.guestProfileId = none ∧ (Delayed (w.db.settings x'.eventId)
            (Turn.latest l₃ (Turn.latest l₂ (Turn.latest l₁ (Turn.latest l now 0) 0) 0) 3) ∨
              guestAt u l₃ (guestAt u l₂ (guestAt u l₁ (guestAt u l g 0) 0) 0) 4 = none) := by
      simp [← hg, hsome, Effect.Reaches, hev]
    rw [propext hcond]
    exact afterApproval_along (by rw [hs]; rfl) (hpay ▸ hp) hi (fun hn => absurd hn hsome) hpt
  | none =>
    rw [hgx] at hg
    refine writeApproval_along hi hpt fun l₂ s₂ x' v' h₂ hs hpay he hgx' hpt => ?_
    rw [guestAt_succ (n := 0) h₁, guestAt_succ (n := 5) h₁, guestAt_succ (n := 4) h₂,
      latest_succ (n := 4) h₁, latest_succ (n := 3) h₂]
    have hcond : (guestAt u l g 0 = some u ∨ guestAt u l g 0 = none ∧
        guestAt u l₁ (guestAt u l g 0) 0 = none ∧ (Delayed (w.db.settings r.eventId)
          (Turn.latest l₂ (Turn.latest l₁ (Turn.latest l now 0) 0) 3) ∨
            guestAt u l₂ (guestAt u l₁ (guestAt u l g 0) 0) 4 = none)) ↔
        False ∨ x'.guestProfileId = none ∧ (Delayed (w.db.settings x'.eventId)
          (Turn.latest l₂ (Turn.latest l₁ (Turn.latest l now 0) 0) 3) ∨
            guestAt u l₂ (guestAt u l₁ (guestAt u l g 0) 0) 4 = none) := by
      simp [← hg, hgx', he]
    rw [propext hcond]
    exact afterApproval_along (by rw [hs]; rfl) (hpay ▸ hp) hi (fun _ => id) hpt

end AdminWrite

/-- A row that is due for approval: accepted by its guest, whose name and contact are there. -/
structure Candidate (i : Nat) (r : Invitation) (w : World) : Prop where
  row : w.row i = some r
  status : r.status = .accepted
  rsvpChoice : r.rsvpChoice = some .yes
  firstName : r.firstName ≠ ""
  lastName : r.lastName ≠ ""
  pendingContactId : r.pendingContactId.isSome = true
  pendingContactPayload : r.pendingContactPayload.isSome = true

theorem Candidate.point (h : Candidate i r w) :
    Point i u r.eventId w r r.guestProfileId w.now False w where
  row := ⟨r, h.row, rfl, rfl⟩
  settings := rfl
  now_eq := rfl
  journal := ⟨[], rfl, by simp⟩

theorem addGuestId_eq : InvitationWrite.addGuestId i u =
    .step (fun c s => (updateManyInvitations i (fun _ => true)
      { guestProfileId := some (some u) }).run c s) fun count =>
        .ret (if count = 0 then .error (.invitationNotFound i) else .ok ()) := by
  unfold InvitationWrite.addGuestId
  simp only [liftM_eq]
  refine congrArg (Prog.step _) (funext fun count => ?_)
  show (if count = 0 then _ else _) = _
  split <;> rfl

/-- An approval reaches the guest who is linked meanwhile if and only if he is linked when the row
is read, or nobody is when the approval is written, nor, unless the ticket is to be released later,
when the follow-up reads the row again. -/
theorem approval_reaches_iff {input : ApproveInvitationDTO} {y : Invitation} {o : Unit}
    (hc : Candidate i r w) (ha : input.approve = true) (hi : input.id = i)
    (hj : Prog.Joint Clock l (AdminWrite.approve cfg ctx input) (InvitationWrite.addGuestId i u) w
      (.ok y) (.ok o) t) :
    Reached i r.eventId u w t ↔
      guestAt u l r.guestProfileId 0 = some u ∨
        guestAt u l r.guestProfileId 0 = none ∧ guestAt u l r.guestProfileId 1 = none ∧
          (Delayed (w.db.settings r.eventId) (Turn.latest l w.now 5) ∨
            guestAt u l r.guestProfileId 6 = none) := by
  rw [addGuestId_eq] at hj
  exact hj.along (AdminWrite.approve_along ha hi hc.pendingContactPayload hc.point)

def acceptedWorld : World := (trace plainConfig (publicResendRun.take 2) .empty).2

def approval : ApproveInvitationDTO :=
  { id := 0, approve := true, actorId := 5, activeEventId := some 7 }

def linkRace (l : List (Turn Nat)) :
    Option (Except Exception Invitation × Except Exception Unit × World) :=
  Prog.race (fun _ => false) l (AdminWrite.approve plainConfig { tenantId := some 1 } approval)
    (InvitationWrite.addGuestId 0 9) acceptedWorld

theorem candidate_acceptedWorld : ∃ r, Candidate 0 r acceptedWorld ∧ r.guestProfileId = none := by
  have hrow : (acceptedWorld.row 0).any (fun r => r.status = .accepted &&
    r.rsvpChoice = some .yes &&
      r.firstName ≠ "" && r.lastName ≠ "" && r.pendingContactId.isSome &&
      r.pendingContactPayload.isSome && r.guestProfileId = none) = true := by
    decide
  obtain ⟨r, hr, hok⟩ := (Option.any_eq_true _ _).1 hrow
  simp only [Bool.and_eq_true, decide_eq_true_eq] at hok
  obtain ⟨⟨⟨⟨⟨⟨hs, hy⟩, hf⟩, hl⟩, hid⟩, hp⟩, hg⟩ := hok
  exact ⟨r, ⟨hr, hs, hy, hf, hl, hid, hp⟩, hg⟩

theorem joint_of_linkRace (h : (linkRace l).any (fun x => x.1.isOk && x.2.1.isOk) = true) :
    ∃ y o t, Prog.Joint Clock l
      (AdminWrite.approve plainConfig { tenantId := some 1 } approval)
      (InvitationWrite.addGuestId 0 9) acceptedWorld (.ok y) (.ok o) t := by
  obtain ⟨⟨a, b, t⟩, hx, hok⟩ := (Option.any_eq_true _ _).1 h
  have hj := Prog.joint_of_race (E := Clock) hx
  obtain ⟨ha, hb⟩ := Bool.and_eq_true_iff.1 hok
  cases a with
  | error e => cases ha
  | ok y =>
    cases b with
    | error e => cases hb
    | ok o => exact ⟨y, o, t, hj⟩

theorem approval_reaches_afterwards : ∃ r y o t, Candidate 0 r acceptedWorld ∧
    Prog.Joint Clock (List.replicate 8 .first ++ [.second])
      (AdminWrite.approve plainConfig { tenantId := some 1 } approval)
      (InvitationWrite.addGuestId 0 9) acceptedWorld (.ok y) (.ok o) t ∧
    Reached 0 r.eventId 9 acceptedWorld t := by
  obtain ⟨r, hc, hg⟩ := candidate_acceptedWorld
  obtain ⟨y, o, t, hj⟩ := joint_of_linkRace (l := List.replicate 8 .first ++ [.second]) (by decide)
  refine ⟨r, y, o, t, hc, hj, (approval_reaches_iff hc rfl rfl hj).2 ?_⟩
  rw [hg]
  exact .inr ⟨by decide, by decide, .inr (by decide)⟩

/-- Linked between the read and the write, the guest gets neither access nor a link. -/
theorem approval_misses : ¬ ∀ l r y o t, Candidate 0 r acceptedWorld →
    Prog.Joint Clock l (AdminWrite.approve plainConfig { tenantId := some 1 } approval)
      (InvitationWrite.addGuestId 0 9) acceptedWorld (.ok y) (.ok o) t →
    Reached 0 r.eventId 9 acceptedWorld t := by
  intro hall
  obtain ⟨r, hc, hg⟩ := candidate_acceptedWorld
  obtain ⟨y, o, t, hj⟩ := joint_of_linkRace (l := [.first, .second, .first, .first, .first, .first])
    (by decide)
  have hreached := hall _ r y o t hc hj
  rw [addGuestId_eq] at hj
  have hiff := hj.along (AdminWrite.approve_along rfl rfl hc.pendingContactPayload hc.point)
  rw [hg] at hiff
  rcases hiff.1 hreached with h | ⟨-, h, -⟩
  · exact absurd h (by decide)
  · exact absurd h (by decide)

end InvitationService

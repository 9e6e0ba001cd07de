import InvitationService.Isolation.Guest
import InvitationService.Lifecycle.Handlers

namespace InvitationService

open Resumption Query

variable {R : World → World → Prop} {E : Scope} {cfg : Config} {ctx : Context} {s t : World}
  {i : Nat} {e : EventId}

theorem locked_isolated (hR : Follows R) {l : Lock} {body : Program Unit} (hE : E l.invitationId e)
    (h : ∀ t, Isolated R E body t) :
    (do
      match ← (liftM (acquireLock l) : Program (Option Nat)) with
      | none => return
      | some token => body.ensuring (liftM (releaseLock l token)) : Program Unit).Within R
        (Stays R E) (fun _ _ => True) s := by
  refine Prog.Within.bind <| (isolated_call hR fun t _ => ?_).weaken fun o u _ => ?_
  · split
    · exact .refl t
    · exact (Confined.refl t).lock hE
  · cases o with
    | none => trivial
    | some token =>
      refine (h u).ensuring fun v => (isolated_call hR fun w _ => ?_).weaken fun _ _ _ => trivial
      split
      · exact (Confined.refl w).lock hE
      · exact .refl w

theorem generateTicket_isolated (hR : Follows R) {seatId : Option SeatId} {actorId : UserId}
    {locale : Option Locale} (hi : ∀ e, E i e) :
    (generateTicket cfg ctx i seatId actorId locale).Within R (Stays R E) (fun _ _ => True) s := by
  refine locked_isolated (e := 0) hR (hi _) fun t => ?_
  unfold generateTicketLocked
  simp only [liftM_eq]
  refine (isolated_look hR looks_findInvitation).seq fun o u _ => ?_
  cases o with
  | none => exact isolated_ret
  | some r =>
    refine .ite isolated_ret (.ite isolated_ret (.ite isolated_ret (.ite isolated_ret ?_)))
    exact (GuestConfirmation.sendFirstConfirmationOrReserve_isolated hR (.inl hi)).seq
      fun _ _ _ => isolated_ret

theorem remind_isolated (hR : Follows R) {actorId : Option UserId} {preset : Option String}
    (hi : ∀ e, E i e) :
    (remind cfg ctx i actorId preset).Within R (Stays R E) (fun _ _ => True) s := by
  refine locked_isolated (e := 0) hR (hi _) fun t => ?_
  unfold remindLocked
  simp only [liftM_eq]
  refine Prog.Within.bind <| within_look hR looks_findInvitation fun u _ hu =>
    ends_findInvitation.2 fun _ => ?_
  cases hr : u.row i with
  | none => exact hu
  | some r =>
    have h : Belongs R E i r.eventId u := .of_row hr (hi _)
    refine Prog.Within.weaken ?_ fun _ _ hv => hu.trans hv
    refine (isolated_look hR (Block.looks_call fun _ => rfl)).seq fun settings v hv => ?_
    refine (isolated_look hR (Block.moves_observe fun _ => rfl)).seq fun now w hw => ?_
    refine .ite isolated_ret (.ite isolated_ret (.ite isolated_ret (.ite isolated_ret
      (.ite isolated_ret (.ite isolated_ret (.ite isolated_ret ?_))))))
    refine (GuestConfirmation.resendConfirmation_isolated hR (.inl hi)).seq fun result x hx => ?_
    exact isolated_note hR fun y hy => (((h.carry hv).carry hw).carry hx).has_id hy

theorem requestPublicResend_isolated (hR : Follows R) {input : RequestGuestConfirmationInput}
    {locale : Locale} (hE : ∀ t r, R s t → t.row r.id = some r → r.eventId = input.eventId →
      GuestConfirmation.matchesIdentity cfg (GuestConfirmation.normalizeName cfg input.firstName)
        (GuestConfirmation.normalizeName cfg input.lastName)
        (GuestConfirmation.normalizeEmail cfg input.identifier)
        (if (GuestConfirmation.normalizeEmail cfg input.identifier).isSome then none
          else GuestConfirmation.normalizePhone input.identifier) r = true → E r.id r.eventId) :
    Isolated R E (GuestConfirmation.requestPublicResend cfg ctx input locale) s := by
  unfold GuestConfirmation.requestPublicResend
  simp only [liftM_eq]
  refine .ite isolated_ret (.ite isolated_ret ?_)
  refine Prog.Within.bind <| within_look hR (Block.looks_call fun _ => rfl) fun t hst ht =>
    ends_findManyInvitations.2 fun _ => ?_
  refine Prog.Within.weaken ?_ fun _ _ hu => ht.trans hu
  split
  · rename_i r hr
    have hmem : r ∈ [r] := List.mem_singleton_self r
    rw [← hr] at hmem
    obtain ⟨hmem, hmatch⟩ := List.mem_filter.1 hmem
    obtain ⟨hrow, hcand⟩ := InvitationTable.mem_select.1 hmem
    have hevent : r.eventId = input.eventId := by
      simp only [GuestConfirmation.publicCandidate, Bool.and_eq_true, decide_eq_true_eq] at hcand
      exact hcand.1.1
    have hbelongs : Belongs R E r.id r.eventId t := .of_row hrow (hE t r hst hrow hevent hmatch)
    exact (GuestConfirmation.resendConfirmation_isolated hR hbelongs.mine).seq
      fun _ _ _ => isolated_ret
  · exact isolated_ret

theorem handleAddGuestId_isolated (hR : Follows R) {userId : UserId} (hi : ∀ e, E i e) :
    Isolated R E (handleAddGuestId i userId) s := by
  have hadd : (InvitationWrite.addGuestId i userId).Within R (Stays R E) (fun _ u =>
      Carries R s u ∧ ∃ e, Belongs R E i e u) s := by
    unfold InvitationWrite.addGuestId
    simp only [liftM_eq]
    refine Prog.Within.bind <| (within_stays (K := fun count u => Carries R s u ∧
      (count ≠ 0 → ∃ e, Belongs R E i e u)) hR fun t _ =>
        post_updateManyInvitations.2 ?_).weaken fun count u ⟨hu, h⟩ => ?_
    · have hrefl : Stays R E t t := .refl t
      refine ⟨⟨hrefl, by simp⟩, fun hany => ⟨hrefl.table (.patch fun _ _ => hi _), ?_⟩,
        fun _ => ⟨hrefl, fun _ hx hu => ⟨hu, fun hne => absurd (Except.ok.inj hx).symm hne⟩⟩⟩
      obtain ⟨r, hr, -⟩ := (Option.any_eq_true _ _).1 hany
      refine fun _ _ hu => ⟨hu, fun _ => ⟨r.eventId, hi _, .of_now ?_⟩⟩
      refine ⟨_, (InvitationTable.patch_row_self _ _ _ _).trans (congrArg (Option.map _) hr), rfl⟩
    · split
      · trivial
      · rename_i hne
        exact ⟨hu, h hne⟩
  refine Prog.Within.bind <| hadd.weaken fun _ u ⟨hu, e, h⟩ => ?_
  refine (isolated_call hR fun t ht => ?_).weaken fun _ _ hv => hu.trans hv
  exact (Confined.refl t).log (h.has_id ht)

namespace InvitationWrite

/-- `i` was linked to the guest, or is a plus-one of one that was. -/
inductive Kin (G : World → Prop) (guestId : UserId) : Nat → Prop
  | guest {v : World} {i : Nat} {r : Invitation} :
      G v → v.row i = some r → r.guestProfileId = some guestId → Kin G guestId i
  | plusOne {v : World} {i p : Nat} :
      G v → v.db.invitations.parent i = some p → Kin G guestId p → Kin G guestId i

theorem within_collectLevels_kin {G : World → Prop} {guestId : UserId} (hR : Follows R)
    (hG : ∀ {s t}, R s t → G t) {fuel : Nat} {all queue : List Nat} (hall : ∀ i ∈ all,
      Kin G guestId i)
    (hqueue : ∀ i ∈ queue, Kin G guestId i) :
    (collectLevels fuel all queue).Within R (Stays R E) (fun ids u => Carries R s u ∧
      ∀ i ∈ ids, Kin G guestId i) s := by
  induction fuel generalizing all queue s with
  | zero => exact ⟨.refl s, hall⟩
  | succ fuel ih =>
    cases queue with
    | nil => exact ⟨.refl s, hall⟩
    | cons i queue =>
      refine Prog.Within.bind <| within_look hR (Block.looks_call fun _ => rfl) fun t hst ht =>
        ends_findManyInvitations.2 fun _ => ?_
      have hchildren : ∀ j ∈ (t.db.invitations.select fun r =>
          r.invitedByInvitationId.any (· ∈ i :: queue)).map (·.id), Kin G guestId j := by
        intro j hj
        obtain ⟨r, hr, rfl⟩ := List.mem_map.1 hj
        obtain ⟨hrow, hany⟩ := InvitationTable.mem_select.1 hr
        obtain ⟨p, hp, hmem⟩ := (Option.any_eq_true _ _).1 hany
        exact .plusOne (hG hst) (InvitationTable.parent_eq_some.2 ⟨r, hrow, hp⟩)
          (hqueue p (of_decide_eq_true hmem))
      refine (ih (fun j hj => ?_) hchildren).weaken fun _ _ h => ⟨ht.trans h.1, h.2⟩
      rcases List.mem_append.1 hj with hj | hj
      · exact hall j hj
      · exact hchildren j (List.mem_of_mem_filter hj)

theorem deleteManyInvitations_isolated (hR : Follows R) {p : Invitation → Bool}
    (hE : ∀ r, p r = true → E r.id r.eventId) :
    Isolated R E (perform (deleteManyInvitations p)) s :=
  isolated_call hR fun t _ => (Confined.refl t).table <| .remove fun j r hj hr => by
    have hid : r.id = j := t.db.invitations.id_eq hr
    rw [show t.row j = some r from hr] at hj
    exact hid ▸ hE r hj

theorem deleteByGuestId_isolated {G : World → Prop} (hR : Follows R) (hG : ∀ {s t}, R s t → G t)
    {guestId : UserId} (hE : ∀ j e, Kin G guestId j → E j e) :
    Isolated R E (deleteByGuestId guestId) s := by
  unfold deleteByGuestId collectInvitationTree
  simp only [liftM_eq]
  refine Prog.Within.bind <| within_look hR (Block.looks_call fun _ => rfl) fun t hst ht =>
    ends_findManyInvitations.2 fun _ => ?_
  have hroots : ∀ i ∈ (t.db.invitations.select (·.guestProfileId = some guestId)).map (·.id),
      Kin G guestId i := fun i hi => by
    obtain ⟨r, hr, rfl⟩ := List.mem_map.1 hi
    obtain ⟨hrow, hg⟩ := InvitationTable.mem_select.1 hr
    exact .guest (hG hst) hrow (of_decide_eq_true hg)
  refine Prog.Within.weaken (Isolated.ite isolated_ret ?_) fun _ _ hu => ht.trans hu
  refine Prog.Within.bind <| Prog.Within.bind <| (isolated_look hR
    (Block.moves_observe fun _ => rfl)).weaken fun fuel u hu => ?_
  refine (within_collectLevels_kin hR hG (fun i hi => hroots i (List.mem_eraseDups.1 hi))
    hroots).weaken fun ids v ⟨hv, hids⟩ => ?_
  refine (deleteManyInvitations_isolated hR fun r hr => ?_).weaken fun _ _ hw =>
    (hu.trans hv).trans hw
  exact hE r.id _ (hids r.id (of_decide_eq_true hr))

theorem deleteByEventIds_isolated (hR : Follows R) {eventIds : List EventId}
    (hE : ∀ j, ∀ e ∈ eventIds, E j e) : Isolated R E (deleteByEventIds eventIds) s :=
  .ite isolated_ret (deleteManyInvitations_isolated hR fun r hr =>
    hE r.id _ (of_decide_eq_true hr))

end InvitationWrite
end InvitationService

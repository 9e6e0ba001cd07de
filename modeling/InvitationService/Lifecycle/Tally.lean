import InvitationService.Lifecycle.Runs

open Relation (ReflTransGen)

namespace InvitationService

open Resumption Query GuestConfirmation

/-! What a resend leaves on the counter of its row, and in the journal. -/

def resents (i : Nat) (w : World) : Nat := w.journal.count (.resent i)

def reminders (i : Nat) (w : World) : Nat := w.journal.count (.reminded i true)

structure Advance (i k n m : Nat) (s v : World) : Prop where
  row : (v.row i).map (fun r => r.confirmationResendCount) =
    (s.row i).map (fun r => r.confirmationResendCount + (k : Int))
  resents : resents i v = resents i s + n
  reminders : reminders i v = reminders i s + m

structure Calm (i : Nat) (s v : World) : Prop where
  row : v.row i = s.row i
  settings : v.db.settings = s.db.settings
  now : s.now ≤ v.now
  resents : resents i v = resents i s
  reminders : reminders i v = reminders i s

def Still (s t : World) : Prop := t.db = s.db ∧ t.journal = s.journal ∧ s.now ≤ t.now

theorem environments_still {s t : World} (h : ReflTransGen World.Environment s t) : Still s t :=
  ⟨environments_db h, environments_journal h, (Kept.of_environments h).now⟩

variable {cfg : Config} {ctx : Context} {i j k n m : Nat} {s t u v w : World}

namespace Calm

theorem refl (w : World) : Calm i w w := ⟨rfl, rfl, Nat.le_refl _, rfl, rfl⟩

theorem trans (s t u : World) (h : Calm i s t) (k : Calm i t u) : Calm i s u :=
  ⟨k.row.trans h.row, k.settings.trans h.settings, h.now.trans k.now, k.resents.trans h.resents,
    k.reminders.trans h.reminders⟩

theorem of_still (s t : World) (h : Still s t) : Calm i s t := by
  obtain ⟨hdb, hj, hn⟩ := h
  exact ⟨by rw [World.row, hdb], by rw [hdb], hn, congrArg (List.count _) hj,
    congrArg (List.count _) hj⟩

theorem of_side (h : Side s t) (hrow : t.row i = s.row i) (hset : t.db.settings = s.db.settings) :
    Calm i s t := by
  obtain ⟨l, hl, hs⟩ := h.journal
  have hcount : ∀ x : Effect, ¬ x.Silent → t.journal.count x = s.journal.count x := fun x hx => by
    rw [hl, List.count_append, List.count_eq_zero_of_not_mem fun hm => hx (hs x hm), Nat.zero_add]
  exact ⟨hrow, hset, h.now.ge, hcount _ id, hcount _ id⟩

theorem of_hush (s t : World) (h : Hush s t) : Calm i s t :=
  of_side h.1 (by rw [World.row, h.2]) (by rw [h.2])

theorem log {x : Effect} (h₁ : x ≠ .resent i) (h₂ : x ≠ .reminded i true) : Calm i w (w.log x) :=
  ⟨rfl, rfl, Nat.le_refl _, List.count_cons_of_ne h₁, List.count_cons_of_ne h₂⟩

theorem patch {d : InvitationUpdate} (hij : i ≠ j) :
    Calm i w (w.setInvitations (w.db.invitations.patch j d w.now)) :=
  of_side (Side.of_eq rfl rfl rfl rfl) (InvitationTable.patch_row_of_ne hij d w.now) rfl

theorem rollback (h : Calm i s t) : Calm i s (World.rollback s t) :=
  ⟨rfl, rfl, h.now, h.resents, h.reminders⟩

end Calm

namespace Advance

theorem trans {k' n' m' : Nat} (h : Advance i k n m s t) (h' : Advance i k' n' m' t v) :
    Advance i (k + k') (n + n') (m + m') s v where
  row := by
    rw [h'.row]
    have := congrArg (Option.map (· + (k' : Int))) h.row
    simpa [Function.comp_def, Int.add_assoc] using this
  resents := by rw [h'.resents, h.resents, Nat.add_assoc]
  reminders := by rw [h'.reminders, h.reminders, Nat.add_assoc]

theorem of_calm (h : Calm i s v) : Advance i 0 0 0 s v := ⟨by simp [h.row], h.resents, h.reminders⟩

theorem calm (h : Advance i k n m s t) (h' : Calm i t v) : Advance i k n m s v :=
  h.trans (of_calm h')

theorem resent : Advance i 0 1 0 w (w.log (.resent i)) :=
  ⟨by rw [World.log_row]; simp, by simp [InvitationService.resents],
    by simp [InvitationService.reminders]⟩

theorem reminded : Advance i 0 0 1 w (w.log (.reminded i true)) :=
  ⟨by rw [World.log_row]; simp, by simp [InvitationService.resents],
    by simp [InvitationService.reminders]⟩

end Advance

theorem calm_moves {b : Query α} (hb : b.Moves Hush) : b.Moves (Calm i) := fun w =>
  (hb w).mono fun _ v h => Calm.of_hush w v h

theorem calm_perform {b : Query α} (hb : b.Moves (Calm i)) : (perform b).Drifts Still (Calm i) :=
  drifts_perform Calm.trans Calm.of_still hb

theorem calm_hush {b : Query α} (hb : b.Moves Hush) : (perform b).Drifts Still (Calm i) :=
  calm_perform (calm_moves hb)

theorem calm_seq {p : Program α} {g : α → Program β} (hp : p.Drifts Still (Calm i))
    (hg : ∀ a, (g a).Drifts Still (Calm i)) : (p >>= g).Drifts Still (Calm i) :=
  hp.bind Calm.trans hg

theorem calm_ret (r : Except Exception α) : (Prog.ret r : Program α).Drifts Still (Calm i) :=
  Prog.drifts_ret Calm.refl r

/-- A resend of `r` gets past its checks, the cooldown apart. -/
structure Resendable (r : Invitation) (now : Nat) : Prop where
  guestProfileId : r.guestProfileId = none
  actionable : actionable r.status = true
  eventEndsAt : r.eventEndsAt.any (· ≤ now) = false

/-- A resend of `i` that gets past its checks finds a payload that names a seat. -/
def Seated (i : Nat) (w : World) : Prop := ∀ r p, w.row i = some r → Resendable r w.now →
  r.pendingContactPayload = some p → truthy p.seatId = true

theorem Resendable.earlier {r : Invitation} {now now' : Nat} (h : Resendable r now')
    (hn : now ≤ now') : Resendable r now := by
  refine ⟨h.guestProfileId, h.actionable, ?_⟩
  have he := h.eventEndsAt
  cases hr : r.eventEndsAt with
  | none => rfl
  | some e =>
    simp only [hr, Option.any_some, decide_eq_false_iff_not] at he ⊢
    omega

namespace GuestConfirmation

/-! A resend of `j`, seen from another invitation. -/

theorem calm_persistSend {token : Nat} {payload : PendingUser} {inc : Bool} (hij : i ≠ j) :
    (persistSend j token payload inc).Moves (Calm i) := fun w => by
  simp only [persistSend, Prog.post_bind, post_clock, post_updateInvitation]
  exact ⟨.refl w, fun r _ => .patch hij, fun _ => .refl w⟩

theorem calm_emitConfirmGuest {r : Invitation} {token : Nat} {seatId : Option SeatId}
    {actorId : Option UserId} {operation : String} :
    (emitConfirmGuest cfg ctx r token seatId actorId operation).Moves (Calm i) := fun w => by
  simp only [emitConfirmGuest, Prog.post_bind, post_clock, post_send]
  exact ⟨.refl w, .log (by simp) (by simp)⟩

theorem calm_requestSeatReservation {actorId : Option UserId} :
    (requestSeatReservation cfg ctx j actorId).Drifts Still (Calm i) := by
  unfold requestSeatReservation
  simp only [liftM_eq]
  refine calm_seq (calm_hush hush_findInvitation) fun o => ?_
  cases o with
  | none => exact calm_ret _
  | some r =>
    exact .ite (calm_ret _) (.ite (calm_ret _)
      (calm_seq (calm_hush (hush_send trivial)) fun _ => calm_ret _))

theorem calm_enqueue {topic : String} {fact : AnalyticsFact} :
    (enqueue ctx topic fact).Moves (Calm i) := by
  unfold enqueue
  split
  · exact Prog.moves_ret Calm.refl _
  · exact Block.moves_call Calm.refl fun w => .of_side (Side.of_eq rfl rfl rfl rfl) rfl rfl

theorem calm_recordResentAnalytics : (recordResentAnalytics ctx j).Drifts Still (Calm i) :=
  drifts_transaction Calm.trans Calm.of_still calm_enqueue fun _ _ => .rollback

theorem calm_resendConfirmation {actorId : Option UserId} {locale : Option Locale} (hij : i ≠ j) :
    (resendConfirmation cfg ctx j actorId locale).Drifts Still (Calm i) := by
  have hafter : (do
      recordResentAnalytics ctx j
      perform (note (.resent j))
      pure ResendConfirmationResult.resent : Program _).Drifts Still (Calm i) :=
    calm_seq calm_recordResentAnalytics fun _ => calm_seq (calm_perform <|
      Block.moves_record fun _ => .log (by simpa using hij.symm) (by simp)) fun _ => calm_ret _
  unfold resendConfirmation
  simp only [liftM_eq]
  refine calm_seq (calm_hush hush_findInvitation) fun o => ?_
  cases o with
  | none => exact calm_ret _
  | some r =>
    refine .ite (calm_ret _) (.ite (calm_ret _) ?_)
    refine calm_seq (calm_hush hush_clock) fun now => .ite (calm_ret _) ?_
    split
    · exact calm_ret _
    · refine calm_seq (calm_hush hush_inResendCooldown) fun b => .ite (calm_ret _) ?_
      refine calm_seq (calm_hush hush_setResendCooldown) fun _ => .ite ?_ ?_
      · exact calm_seq (calm_hush hush_cacheSet) fun token =>
          calm_seq (calm_perform (calm_persistSend hij)) fun _ =>
            calm_seq (calm_perform calm_emitConfirmGuest) fun _ => hafter
      · exact calm_seq calm_requestSeatReservation fun _ => hafter

/-! A resend of `i` itself, when it finds `i` seated. -/

def Accounted (P : Prop) (i : Nat) (s : World) :
    Except Exception ResendConfirmationResult → World → Prop
  | .ok .resent, v => Advance i 1 1 0 s v
  | .ok (.skipped _), v => Calm i s v
  | .error e, v => ∃ k, Advance i k 0 0 s v ∧ (P → (∀ d, e ≠ .dependency d) → k = 0)

theorem Accounted.of_calm {P : Prop} (e : Exception) (v : World) (h : Calm i s v) :
    Accounted P i s (.error e) v := ⟨0, .of_calm h, fun _ _ => rfl⟩

theorem recordResentAnalytics_tallies : (recordResentAnalytics ctx i).Guarantees Still
    (fun _ _ => True) (fun r v => Calm i s v ∧ (ctx.tenantId.isSome = true → ∀ e, r = .error e →
      ∃ d, e = .dependency d)) s :=
  guarantees_transaction fun t hst => by
    have ht : Calm i s t := .of_still s t hst
    have herr : Calm i s (World.rollback t t) := ht.trans _ _ _ (.rollback (.refl t))
    unfold enqueue
    split
    · rename_i hctx
      exact ⟨trivial, herr, by simp [hctx]⟩
    · refine Block.post_call.2 ⟨⟨trivial, herr, by simp⟩, ⟨trivial, ?_, by simp⟩, trivial, ?_,
        by simp⟩
      · exact ht.trans _ _ _ (.of_side (Side.of_eq rfl rfl rfl rfl) rfl rfl)
      · exact ht.trans _ _ _ (.of_side (Side.of_eq rfl rfl rfl rfl) rfl rfl)

theorem accounted_after (h : Advance i 1 0 0 s t) : (do
    recordResentAnalytics ctx i
    perform (note (.resent i))
    pure ResendConfirmationResult.resent : Program _).Guarantees Still (fun _ _ => True)
      (Accounted (ctx.tenantId.isSome = true) i s) t := by
  refine Prog.Guarantees.bind <| recordResentAnalytics_tallies.weaken fun r u hu => ?_
  cases r with
  | error e =>
    refine ⟨1, h.calm hu.1, fun hP hd => ?_⟩
    obtain ⟨d, rfl⟩ := hu.2 hP e rfl
    exact absurd rfl (hd d)
  | ok _ =>
    refine Prog.Guarantees.bind <| guarantees_perform fun v huv => post_note.2 ⟨trivial, ?_⟩
    exact ((h.calm hu.1).calm (.of_still u v huv)).trans .resent

theorem persistSend_accounted {token : Nat} {payload : PendingUser} (h : Calm i s t) :
    (perform (persistSend i token payload true)).Guarantees Still (fun _ _ => True) (fun
      | .ok _, v => Advance i 1 0 0 s v
      | .error _, v => Calm i s v) t :=
  guarantees_perform fun u hu => by
    have hsu := h.trans _ _ _ (.of_still t u hu)
    simp only [persistSend, Prog.post_bind, post_clock, post_updateInvitation]
    refine ⟨⟨trivial, hsu⟩, fun r hr => ⟨trivial, ?_⟩, fun _ => ⟨trivial, hsu⟩⟩
    refine ⟨?_, hsu.resents, hsu.reminders⟩
    rw [World.setInvitations_row, InvitationTable.patch_row_self, ← hsu.row]
    simp [InvitationUpdate.apply, CountUpdate.apply, Function.comp_def]

theorem emitConfirmGuest_accounted {r : Invitation} {token : Nat} {seatId : Option SeatId}
    {actorId : Option UserId} {operation : String} (h : Advance i k n m s t) :
    (perform (emitConfirmGuest cfg ctx r token seatId actorId operation)).Guarantees Still
      (fun _ _ => True) (fun r v => Advance i k n m s v ∧ ∀ e, r = .error e →
        ∃ d, e = .dependency d)
      t :=
  guarantees_perform fun u hu => by
    have hsu := h.calm (.of_still t u hu)
    simp only [emitConfirmGuest, Prog.post_bind, post_clock, post_send]
    exact ⟨⟨trivial, hsu, by simp⟩, trivial, hsu.calm (.log (by simp) (by simp)), by simp⟩

theorem overrideLocale_seatId (payload : PendingUser) (locale : Option Locale) :
    (overrideLocale payload locale).seatId = payload.seatId := by
  unfold overrideLocale
  split
  · split <;> rfl
  · rfl

theorem resendConfirmation_accounted {actorId : Option UserId} {locale : Option Locale}
    (hs : Seated i s) (hst : Calm i s t) : (resendConfirmation cfg ctx i actorId locale).Guarantees
      Still (fun _ _ => True) (Accounted (ctx.tenantId.isSome = true) i s) t := by
  unfold resendConfirmation
  simp only [liftM_eq]
  refine guarantees_perform_bind Calm.trans Calm.of_still (calm_moves hush_findInvitation) hst
    Accounted.of_calm fun t ht => ends_findInvitation.2 fun _ => ?_
  cases hr : t.row i with
  | none => exact Accounted.of_calm _ t ht
  | some r =>
    refine .ite (fun _ => ht) fun hg => .ite (fun _ => ht) fun ha => ?_
    refine guarantees_perform_bind Calm.trans Calm.of_still (calm_moves hush_clock) ht
      Accounted.of_calm fun u hu => ends_clock.2 fun _ => .ite (fun _ => hu) fun he => ?_
    split
    · exact hu
    · rename_i stored hp
      have hseat : truthy (overrideLocale stored locale).seatId = true := by
        have hres : Resendable r u.now := ⟨by simpa using hg, by simpa using ha, by simpa using he⟩
        rw [overrideLocale_seatId]
        exact hs r stored (ht.row ▸ hr) (hres.earlier hu.now) hp
      refine guarantees_perform_bind Calm.trans Calm.of_still (calm_moves hush_inResendCooldown) hu
        Accounted.of_calm fun v hv => ends_inResendCooldown.2 fun _ =>
          .ite (fun _ => hv) fun _ => ?_
      refine guarantees_perform_bind Calm.trans Calm.of_still (calm_moves hush_setResendCooldown) hv
        Accounted.of_calm fun w _ => (Prog.ends_true _).mono fun _ x _ hx => ?_
      refine .ite (fun _ => ?_) fun h => absurd hseat h
      refine guarantees_perform_bind Calm.trans Calm.of_still (calm_moves hush_cacheSet) hx
        Accounted.of_calm fun y _ => (Prog.ends_true _).mono fun token z _ hz => ?_
      refine Prog.Guarantees.bind <| (persistSend_accounted hz).weaken fun o x hx => ?_
      cases o with
      | error e => exact Accounted.of_calm e x hx
      | ok _ =>
        refine Prog.Guarantees.bind <| (emitConfirmGuest_accounted hx).weaken fun o y hy => ?_
        cases o with
        | error e =>
          obtain ⟨d, rfl⟩ := hy.2 e rfl
          exact ⟨1, hy.1, fun _ hd => absurd rfl (hd d)⟩
        | ok _ => exact accounted_after hy.1

end GuestConfirmation
end InvitationService

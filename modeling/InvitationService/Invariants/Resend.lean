import InvitationService.Lifecycle.Interleaving
import InvitationService.Lifecycle.Reliable
import InvitationService.Lifecycle.Tally

namespace InvitationService

open Resumption Query GuestConfirmation

def publicMatches (cfg : Config) (input : RequestGuestConfirmationInput) (w : World) :
    List Invitation :=
  let email := normalizeEmail cfg input.identifier
  let phone := if email.isSome then none else normalizePhone input.identifier
  (w.db.invitations.select (publicCandidate input.eventId)).filter
    (matchesIdentity cfg (normalizeName cfg input.firstName) (normalizeName cfg input.lastName)
      email phone)

structure Remindable (cfg : Config) (settings : Option EventSettings) (r : Invitation) : Prop where
  enabled : settings.any (!·.guestConfirmationReminderEnabled) = false
  cap : r.confirmationResendCount < maxResends cfg settings

/-- The call asks for a resend of `i`, and its own checks let it through. -/
def Call.Asks (cfg : Config) (c : Call) (i : Nat) (w : World) : Prop :=
  match c with
  | .job (.remind j _ _) => j = i ∧ ∃ r, w.row i = some r ∧
      Remindable cfg (w.db.settings r.eventId) r
  | .resendGuestConfirmations ids _ _ e => i ∈ ids ∧ ∃ r, w.row i = some r ∧ e = some r.eventId
  | .requestGuestConfirmation input _ => ∃ r, publicMatches cfg input w = [r] ∧ r.id = i
  | _ => False

theorem Call.asks_log {cfg : Config} {c : Call} {i : Nat} {w : World} {x : Effect} :
    c.Asks cfg i (w.log x) ↔ c.Asks cfg i w := by
  cases c with
  | job j => cases j <;> exact .rfl
  | _ => exact .rfl

def Tallied (cfg : Config) (P : Prop) (i : Nat) (s : World) (r : Except Exception α) (v : World) :
    Prop :=
  ∃ k n m, Advance i k n m s v ∧ m ≤ n ∧ n ≤ k ∧
    (m ≠ 0 → m = 1 ∧ ∃ x, s.row i = some x ∧ Remindable cfg (s.db.settings x.eventId) x) ∧
    (P → (∀ d, r ≠ .error (.dependency d)) → k = n)

variable {cfg : Config} {ctx : Context} {i j : Nat} {s t u v w : World} {P : Prop}

namespace Tallied

theorem of_calm (r : Except Exception α) (h : Calm i s v) : Tallied cfg P i s r v :=
  ⟨0, 0, 0, .of_calm h, Nat.le_refl _, Nat.le_refl _, fun h => absurd rfl h, fun _ _ => rfl⟩

theorem calm {r : Except Exception α} (h : Tallied cfg P i s r t) (h' : Calm i t v) :
    Tallied cfg P i s r v := by
  obtain ⟨k, n, m, ha, hrest⟩ := h
  exact ⟨k, n, m, ha.calm h', hrest⟩

theorem failed {r : Except Exception α} {d : Dependency} (h : Tallied cfg P i s r v) :
    Tallied cfg P i s (.error (.dependency d) : Except Exception β) v := by
  obtain ⟨k, n, m, ha, hm, hn, hcap, -⟩ := h
  exact ⟨k, n, m, ha, hm, hn, hcap, fun _ h => absurd rfl (h d)⟩

theorem rest (r : Except Exception β) (h : Tallied cfg P i s (.ok x : Except Exception α) t)
    (h' : Calm i t v) : Tallied cfg P i s r v := by
  obtain ⟨k, n, m, ha, hm, hn, hcap, hk⟩ := h
  exact ⟨k, n, m, ha.calm h', hm, hn, hcap, fun hp _ => hk hp nofun⟩

theorem of_error {e : Exception} (hP : P → ctx.tenantId.isSome = true)
    (h : Accounted (ctx.tenantId.isSome = true) i s (.error e) v) :
    Tallied cfg P i s (.error e : Except Exception α) v := by
  obtain ⟨k, ha, hk⟩ := h
  exact ⟨k, 0, 0, ha, Nat.le_refl _, Nat.zero_le _, fun h => absurd rfl h,
    fun hp hd => hk (hP hp) fun d he => hd d (he ▸ rfl)⟩

theorem of_accounted {r : ResendConfirmationResult}
    (h : Accounted (ctx.tenantId.isSome = true) i s (.ok r) v) :
    Tallied cfg P i s (.ok () : Except Exception Unit) v := by
  cases r with
  | resent =>
    exact ⟨1, 1, 0, h, Nat.zero_le _, Nat.le_refl _, fun h => absurd rfl h, fun _ _ => rfl⟩
  | skipped _ => exact of_calm _ h

end Tallied

/-! The reminder. -/

theorem calm_remindLocked {actorId : Option UserId} {preset : Option String} (hij : i ≠ j) :
    (remindLocked cfg ctx j actorId preset).Drifts Still (Calm i) := by
  unfold remindLocked
  simp only [liftM_eq]
  refine calm_seq (calm_hush hush_findInvitation) fun o => ?_
  cases o with
  | none => exact calm_ret _
  | some r =>
    refine calm_seq (calm_hush hush_findSettings) fun settings => ?_
    refine calm_seq (calm_hush hush_clock) fun now => .ite (calm_ret _) (.ite (calm_ret _) ?_)
    refine .ite (calm_ret _) (.ite (calm_ret _) (.ite (calm_ret _) (.ite (calm_ret _) ?_)))
    refine .ite (calm_ret _) (calm_seq (calm_resendConfirmation hij) fun r => ?_)
    exact calm_perform (Block.moves_record fun _ => .log (by simp) (by simp [hij.symm]))

theorem remindLocked_tallied {actorId : Option UserId} {preset : Option String}
    (hask : (∃ r, s.row i = some r ∧ Remindable cfg (s.db.settings r.eventId) r) → Seated i s)
    (hP : (∃ r, s.row i = some r ∧ Remindable cfg (s.db.settings r.eventId) r) → P →
      ctx.tenantId.isSome = true)
    (hst : Calm i s t) : (remindLocked cfg ctx i actorId preset).Guarantees Still
      (fun _ _ => True) (Tallied cfg P i s) t := by
  have herr : ∀ e u, Calm i s u → Tallied cfg P i s (.error e : Except Exception Unit) u :=
    fun _ _ => .of_calm _
  unfold remindLocked
  simp only [liftM_eq]
  refine guarantees_perform_bind Calm.trans Calm.of_still (calm_moves hush_findInvitation) hst
    herr fun t ht => ends_findInvitation.2 fun _ => ?_
  cases hr : t.row i with
  | none => exact .of_calm _ ht
  | some r =>
    refine guarantees_perform_bind Calm.trans Calm.of_still (calm_moves hush_findSettings) ht
      herr fun u hu => ends_findSettings.2 fun _ => ?_
    refine guarantees_perform_bind Calm.trans Calm.of_still (calm_moves hush_clock) hu
      herr fun v hv => ends_clock.2 fun _ => ?_
    rw [hu.settings]
    refine .ite (fun _ => .of_calm _ hv) fun henabled => .ite (fun _ => .of_calm _ hv) fun _ => ?_
    refine .ite (fun _ => .of_calm _ hv) fun _ => .ite (fun _ => .of_calm _ hv) fun _ => ?_
    refine .ite (fun _ => .of_calm _ hv) fun _ => .ite (fun _ => .of_calm _ hv) fun hcap => ?_
    refine .ite (fun _ => .of_calm _ hv) fun _ => ?_
    have hremind : ∃ r, s.row i = some r ∧ Remindable cfg (s.db.settings r.eventId) r :=
      ⟨r, ht.row ▸ hr, by simpa using henabled, Int.not_le.1 hcap⟩
    refine Prog.Guarantees.bind <| (resendConfirmation_accounted (hask hremind) hv).weaken
      fun o x hx => ?_
    cases o with
    | error e => exact .of_error (hP hremind) hx
    | ok r =>
      refine guarantees_perform fun y hy => post_note.2 ⟨trivial, ?_⟩
      cases r with
      | resent =>
        exact ⟨1, 1, 1, (hx.calm (.of_still x y hy)).trans .reminded, Nat.le_refl _, Nat.le_refl _,
          fun _ => ⟨rfl, hremind⟩, fun _ _ => rfl⟩
      | skipped _ =>
        exact .of_calm _ (hx.trans _ _ _ ((Calm.of_still x y hy).trans _ _ _
          (.log (by simp) (by simp [ResendConfirmationResult.isResent]))))

theorem releaseLock_tallied {l : Lock} {token : Nat} {r : Except Exception Unit}
    (h : Tallied cfg P i s r t) : (perform (releaseLock l token)).Guarantees Still
      (fun _ _ => True) (fun
        | .ok _, u => Tallied cfg P i s r u
        | .error e, u => Tallied cfg P i s (.error e : Except Exception Unit) u) t :=
  guarantees_perform fun u hu => by
    have hu := h.calm (.of_still t u hu)
    refine Block.post_call.2 ⟨⟨trivial, hu.failed⟩, ?_⟩
    by_cases hl : u.locks l = some token
    · simp only [hl, if_true]
      exact ⟨trivial, hu.calm (.of_side (Side.of_eq rfl rfl rfl rfl) rfl rfl)⟩
    · simp only [if_neg hl]
      exact ⟨trivial, hu⟩

theorem remind_tallied {actorId : Option UserId} {preset : Option String}
    (hask : (Call.job (.remind j actorId preset)).Asks cfg i s → Seated i s)
    (hP : (Call.job (.remind j actorId preset)).Asks cfg i s → P → ctx.tenantId.isSome = true) :
    (remind cfg ctx j actorId preset).Guarantees Still (fun _ _ => True) (Tallied cfg P i s) s := by
  unfold remind
  simp only [liftM_eq]
  refine guarantees_perform_bind Calm.trans Calm.of_still (calm_moves hush_acquireLock) (.refl s)
    (fun _ _ => .of_calm _) fun t _ => (Prog.ends_true _).mono fun o u _ hu => ?_
  cases o with
  | none => exact .of_calm _ hu
  | some token =>
    refine Prog.Guarantees.ensuring <| Prog.Guarantees.weaken (Q := Tallied cfg P i s) ?_
      fun r v hv => releaseLock_tallied hv
    by_cases hij : j = i
    · subst hij
      exact remindLocked_tallied (fun h => hask ⟨rfl, h⟩) (fun h => hP ⟨rfl, h⟩) hu
    · exact (calm_remindLocked (Ne.symm hij) u).weaken fun r v hv => .of_calm r (hu.trans _ _ _ hv)

/-! The request of staff. -/

theorem resendGuestConfirmations_tallied {ids : List Nat} {locale : Option Locale} {user : UserId}
    {e : Option EventId}
    (hask : (Call.resendGuestConfirmations ids locale user e).Asks cfg i s → Seated i s)
    (hP : (Call.resendGuestConfirmations ids locale user e).Asks cfg i s →
      P → ctx.tenantId.isSome = true) :
    (AdminWrite.resendGuestConfirmations cfg ctx ids locale user e).Guarantees Still
      (fun _ _ => True) (Tallied cfg P i s) s := by
  unfold AdminWrite.resendGuestConfirmations
  simp only [liftM_eq]
  have hcheck : ∀ j, (ensureExists j >>= fun r =>
      AdminWrite.assertMatchesActiveEvent r.eventId e).Moves Hush := fun j =>
    hush_ensureExists.bind Hush.trans fun r => hush_assertMatchesActiveEvent
  refine Prog.guarantees_forM_once (a := i) Calm.refl Calm.trans (nodup_eraseDups ids) (.refl s)
    (fun r t => .of_calm r) (fun j hij => ?_) (fun hi t ht => ?_) fun r t u ht => ht.rest r
  · exact calm_seq (calm_hush (hcheck j)) fun _ =>
      calm_seq (calm_resendConfirmation (Ne.symm hij)) fun _ => calm_ret _
  · refine guarantees_perform_bind Calm.trans Calm.of_still (calm_moves (hcheck i)) ht
      (fun _ _ => .of_calm _) fun u hu => ?_
    rw [Prog.ends_bind, ends_ensureExists]
    intro r hr
    rw [ends_assertMatchesActiveEvent]
    intro he _
    have hasks : (Call.resendGuestConfirmations ids locale user e).Asks cfg i s :=
      ⟨List.mem_eraseDups.1 hi, r, hu.row ▸ hr, he⟩
    refine Prog.Guarantees.bind <| (resendConfirmation_accounted (hask hasks) hu).weaken
      fun o x hx => ?_
    cases o with
    | error e => exact .of_error (hP hasks) hx
    | ok _ => exact .of_accounted hx

/-! The request of a guest. -/

theorem requestPublicResend_tallied {input : RequestGuestConfirmationInput} {locale : Locale}
    (hask : (Call.requestGuestConfirmation input locale).Asks cfg i s → Seated i s)
    (hP : (Call.requestGuestConfirmation input locale).Asks cfg i s →
      P → ctx.tenantId.isSome = true) :
    (requestPublicResend cfg ctx input locale).Guarantees Still (fun _ _ => True)
      (Tallied cfg P i s) s := by
  unfold requestPublicResend
  simp only [liftM_eq]
  refine .ite (fun _ => .of_calm _ (.refl s)) fun _ =>
    .ite (fun _ => .of_calm _ (.refl s)) fun _ => ?_
  refine Prog.Guarantees.bind <| guarantees_perform fun t hst =>
    Block.post_call.2 ⟨⟨trivial, .of_calm _ (.of_still s t hst)⟩, trivial, ?_⟩
  have ht : Calm i s t := .of_still s t hst
  dsimp only
  split
  · rename_i r hr
    have hmatch : publicMatches cfg input s = [r] := by
      rw [publicMatches, ← hst.1]
      exact hr
    by_cases hi : r.id = i
    · subst hi
      have hasks : (Call.requestGuestConfirmation input locale).Asks cfg r.id s := ⟨r, hmatch, rfl⟩
      refine Prog.Guarantees.bind <| (resendConfirmation_accounted (hask hasks) ht).weaken
        fun o x hx => ?_
      cases o with
      | error e => exact .of_error (hP hasks) hx
      | ok _ => exact .of_accounted hx
    · exact Prog.Guarantees.bind <| (calm_resendConfirmation (Ne.symm hi) t).weaken fun o x hx => by
        cases o <;> exact .of_calm _ (ht.trans _ _ _ hx)
  · exact .of_calm _ ht

theorem execute_tallied {c : Call} (hc : c.Resends) (hask : c.Asks cfg i s → Seated i s)
    (hP : c.Asks cfg i s → P → ctx.tenantId.isSome = true) :
    (execute cfg ⟨c, ctx⟩).Guarantees Still (fun _ _ => True) (Tallied cfg P i s) s := by
  cases c with
  | resendGuestConfirmations ids locale user e =>
    refine Prog.Guarantees.bind (Q := Tallied cfg P i s) ?_
    unfold Resolver.requireIds
    split
    · exact .of_calm _ (.refl s)
    · exact resendGuestConfirmations_tallied hask hP
  | requestGuestConfirmation input locale => exact requestPublicResend_tallied hask hP
  | job x =>
    cases x with
    | remind j actorId preset => exact remind_tallied hask hP
    | generateTicket => exact hc.elim
  | _ => exact hc.elim

/-! Every other call. -/

theorem Action.count_eq {R : World → World → Prop} {c : Call} {a : World} {x : Effect}
    (hA : Action R cfg c a w v) (hx : ¬ Utters R c w x) :
    v.journal.count x = w.journal.count x := by
  obtain ⟨l, hl, hu⟩ := hA.journal
  rw [hl, List.count_append, List.count_eq_zero_of_not_mem fun hm => hx (hu x hm), Nat.zero_add]

theorem Action.resends_eq {R : World → World → Prop} {c : Call} {a : World}
    (hA : Action R cfg c a w v) (hc : ¬ c.Resends) :
    resents i v = resents i w ∧ reminders i v = reminders i w := by
  constructor
  · refine hA.count_eq fun hu => ?_
    cases hu with
    | silent hs => exact hs
    | resent h => exact hc h
  · refine hA.count_eq fun hu => ?_
    cases hu with
    | silent hs => exact hs
    | reminded h => exact hc h

theorem Action.confirmationResendCount_eq {R : World → World → Prop} {c : Call} {a : World}
    (hA : Action R cfg c a w v) (hc : ¬ c.Resends) (hi : i < w.db.invitations.next) :
    ∀ x, v.row i = some x → ∃ y, w.row i = some y ∧
      x.confirmationResendCount = y.confirmationResendCount := fun x₀ hx₀ => by
  refine hA.rows (Q := fun j x => j = i → ∃ y, w.row i = some y ∧
    x.confirmationResendCount = y.confirmationResendCount) (fun j r hr hj => ?_)
    (fun j o r hw ho hj => ?_) (fun j _ x _ _ _ _ _ _ hx hj => ?_) i x₀ hx₀ rfl
  · subst hj
    exact ⟨r, hr, rfl⟩
  · subst hj
    cases hw with
    | insert hle _ => exact absurd hi (Nat.not_lt.2 hle)
    | modify hd _ =>
      rw [InvitationUpdate.apply_confirmationResendCount hd.confirmationResendCount]
      exact ho _ rfl rfl
    | reply _ _ _ _ _ _ =>
      rw [InvitationUpdate.apply_confirmationResendCount (by rfl)]
      exact ho _ rfl rfl
    | attach _ _ _ _ =>
      rw [InvitationUpdate.apply_confirmationResendCount (by rfl)]
      exact ho _ rfl rfl
    | reject _ _ _ =>
      rw [InvitationUpdate.apply_confirmationResendCount (by rfl)]
      exact ho _ rfl rfl
    | @send _ _ _ _ _ inc _ _ _ _ _ hinc =>
      rw [InvitationUpdate.apply_confirmationResendCount
        (if_neg fun h => hc (hinc h).1)]
      exact ho _ rfl rfl
    | stage _ _ _ _ =>
      rw [InvitationUpdate.apply_confirmationResendCount (by rfl)]
      exact ho _ rfl rfl
  · subst hj
    exact ⟨x, hx, InvitationUpdate.apply_confirmationResendCount rfl _ x⟩

structure Placed (i : Nat) (e : EventId) (f : EventId → Option EventSettings) (w : World) :
    Prop where
  next : i < w.db.invitations.next
  event : ∀ x, w.row i = some x → x.eventId = e
  settings : w.db.settings = f

/-- The counter of `i` covers its resends, and with `P` counts them; among these are the
reminders, of which there are at most `cap`. -/
structure Counted (P : Prop) (i : Nat) (cap : Int) (w : World) : Prop where
  resents_le : ∀ x, w.row i = some x → (resents i w : Int) ≤ x.confirmationResendCount
  resents_eq : P → ∀ x, w.row i = some x → x.confirmationResendCount = resents i w
  reminders_le : reminders i w ≤ resents i w
  cap : (reminders i w : Int) ≤ cap

section

variable {e : EventId} {f : EventId → Option EventSettings} {cap : Int} {c : Call}

theorem Placed.of_db (h : Placed i e f w) (hdb : v.db = w.db) : Placed i e f v :=
  ⟨by rw [hdb]; exact h.next, fun x hx => h.event x (by rwa [World.row, ← hdb]), by
    rw [hdb]; exact h.settings⟩

theorem Placed.action {R : World → World → Prop} {a : World} (h : Placed i e f w)
    (hA : Action R cfg c a w v) (hc : ¬ c.Projects) : Placed i e f v where
  next := Nat.lt_of_lt_of_le h.next hA.next_le
  event x hx := by
    obtain ⟨y, hy, he⟩ := hA.keepsEvent i x hx h.next
    exact he.trans (h.event y hy)
  settings := (hA.settings_eq hc).trans h.settings

theorem Counted.of_calm (h : Counted P i cap w) (hc : Calm i w v) : Counted P i cap v where
  resents_le x hx := by
    rw [hc.resents]
    exact h.resents_le x (hc.row ▸ hx)
  resents_eq hP x hx := by
    rw [hc.resents]
    exact h.resents_eq hP x (hc.row ▸ hx)
  reminders_le := by rw [hc.reminders, hc.resents]; exact h.reminders_le
  cap := by rw [hc.reminders]; exact h.cap

theorem Counted.action {R : World → World → Prop} {a : World} (h : Counted P i cap w)
    (hi : i < w.db.invitations.next) (hA : Action R cfg c a w v) (hc : ¬ c.Resends) :
    Counted P i cap v where
  resents_le x hx := by
    obtain ⟨y, hy, he⟩ := hA.confirmationResendCount_eq hc hi x hx
    rw [(hA.resends_eq hc).1, he]
    exact h.resents_le y hy
  resents_eq hP x hx := by
    obtain ⟨y, hy, he⟩ := hA.confirmationResendCount_eq hc hi x hx
    rw [(hA.resends_eq hc).1, he]
    exact h.resents_eq hP y hy
  reminders_le := by rw [(hA.resends_eq hc).1, (hA.resends_eq hc).2]; exact h.reminders_le
  cap := by rw [(hA.resends_eq hc).2]; exact h.cap

theorem Counted.tallied {r : Except Exception α} (h : Counted P i (maxResends cfg (f e)) s)
    (hp : Placed i e f s) (ht : Tallied cfg P i s r v) (hr : P → ∀ d, r ≠ .error (.dependency d)) :
    Counted P i (maxResends cfg (f e)) v := by
  obtain ⟨k, n, m, ha, hm, hn, hcap, hk⟩ := ht
  have hrow : ∀ x, v.row i = some x → ∃ y, s.row i = some y ∧
      x.confirmationResendCount = y.confirmationResendCount + k := fun x hx => by
    have := ha.row
    rw [hx] at this
    obtain ⟨y, hy, he⟩ := Option.map_eq_some_iff.1 this.symm
    exact ⟨y, hy, he.symm⟩
  have h₁ := ha.resents
  have h₂ := ha.reminders
  have h₃ := h.reminders_le
  refine ⟨fun x hx => ?_, fun hP x hx => ?_, by omega, ?_⟩
  · obtain ⟨y, hy, he⟩ := hrow x hx
    have := h.resents_le y hy
    omega
  · obtain ⟨y, hy, he⟩ := hrow x hx
    have := h.resents_eq hP y hy
    have := hk hP (hr hP)
    omega
  · by_cases hm0 : m = 0
    · have := h.cap
      omega
    · obtain ⟨hm1, y, hy, hy'⟩ := hcap hm0
      have hlt := hy'.cap
      rw [hp.settings, hp.event y hy] at hlt
      have := h.resents_le y hy
      omega

end

structure Keeps (cfg : Config) (P : Prop) (i : Nat) (x : CallRecord) : Prop where
  settings : ¬ x.call.call.Projects
  seated : x.call.call.Asks cfg i x.before → Seated i x.before
  tenant : P → x.call.call.Asks cfg i x.before → x.call.context.tenantId.isSome = true
  working : P → x.call.call.Resends → ∀ d, x.outcome ≠ .error (.dependency d)

theorem Counted.exec {e : EventId} {f : EventId → Option EventSettings} {q : Request}
    {r : Except Exception Unit} (hc : Counted P i (maxResends cfg (f e)) s) (hp : Placed i e f s)
    (hx : Keeps cfg P i ⟨s, q, r⟩)
    (hex : Prog.Exec (Relation.ReflTransGen (service cfg).env) ((service cfg).exec q)
      ((service cfg).arrive q s) r t) :
    Placed i e f t ∧ Counted P i (maxResends cfg (f e)) t := by
  have harrive : Calm i s ((service cfg).arrive q s) := .log (by simp) (by simp)
  have hp' : Placed i e f ((service cfg).arrive q s) := hp.of_db rfl
  have hc' := hc.of_calm harrive
  have henv : ∀ s t, Placed i e f s → World.Environment s t → Placed i e f t := fun _ _ hi he =>
    hi.of_db (environment_db he)
  by_cases hr : q.call.Resends
  · refine ⟨exec_keeps (I := Placed i e f) hex hp' henv fun _ _ _ hi hA => hi.action hA hx.settings,
      hc'.tallied hp' (hex.ends (execute_tallied hr (fun ha => hx.seated (Call.asks_log.1 ha))
        fun ha hP => hx.tenant hP (Call.asks_log.1 ha)) fun _ _ => environments_still) fun hP =>
          hx.working hP hr⟩
  · refine exec_keeps (I := fun v => Placed i e f v ∧ Counted P i (maxResends cfg (f e)) v) hex
      ⟨hp', hc'⟩ (fun u v hi he => ⟨henv u v hi.1 he, hi.2.of_calm (.of_still u v ?_)⟩)
      fun _ _ _ hi hA => ⟨hi.1.action hA hx.settings, hi.2.action hi.1.next hA hr⟩
    exact environments_still (.single he)

/-- As long as every resend of `i` that gets past its checks finds a payload that names a seat,
no more reminders resend `i` than the cap allows; and where the requests carry a verified tenant
and every dependency works, the counter of `i` is the number of its resends. -/
theorem confirmation_resends_counted {r : Invitation} {h : List CallRecord}
    (hs : (service cfg).Serial s h w) (hr : s.row i = some r)
      (hcount : r.confirmationResendCount = 0)
    (hresents : resents i s = 0) (hreminders : reminders i s = 0)
    (hcap : 0 ≤ maxResends cfg (s.db.settings r.eventId))
    (hset : ∀ x ∈ h, ¬ x.call.call.Projects)
    (hseat : ∀ x ∈ h, x.call.call.Asks cfg i x.before → Seated i x.before) :
    (reminders i w : Int) ≤ maxResends cfg (s.db.settings r.eventId) ∧
      ((reliable cfg).Serial s h w →
        (∀ x ∈ h, x.call.call.Asks cfg i x.before → x.call.context.tenantId.isSome = true) →
        ∀ x, w.row i = some x → x.confirmationResendCount = resents i w) := by
  have hp : Placed i r.eventId s.db.settings s := by
    refine ⟨s.db.invitations.id_lt hr, fun x hx => ?_, rfl⟩
    rw [hr] at hx
    cases hx
    rfl
  have hc : ∀ P, Counted P i (maxResends cfg (s.db.settings r.eventId)) s := fun P => by
    have hrow : ∀ x, s.row i = some x → x.confirmationResendCount = 0 := fun x hx => by
      rw [hr] at hx
      cases hx
      exact hcount
    refine ⟨fun x hx => ?_, fun _ x hx => ?_, by omega, by omega⟩
    · rw [hrow x hx, hresents]
      exact Int.le_refl _
    · rw [hrow x hx, hresents]
      rfl
  have hrun : ∀ P : Prop, (∀ x ∈ h, Keeps cfg P i x) →
      Counted P i (maxResends cfg (s.db.settings r.eventId)) w := fun P hkeeps =>
    (hs.invariant (I := fun v => Placed i r.eventId s.db.settings v ∧
      Counted P i (maxResends cfg (s.db.settings r.eventId)) v) hkeeps ⟨hp, hc P⟩
      (fun u v hi he => ⟨hi.1.of_db (environment_db he),
        hi.2.of_calm (.of_still u v (environments_still (.single he)))⟩)
      fun _ _ _ _ hi _ hx hex => hi.2.exec hi.1 hx hex).2
  refine ⟨(hrun False fun x hx => ⟨hset x hx, hseat x hx, False.elim, False.elim⟩).cap,
    fun hrel htenant => (hrun True fun x hx => ⟨hset x hx, hseat x hx, fun _ => htenant x hx,
      fun _ hres d hd => ?_⟩).resents_eq trivial⟩
  exact hrel.avoids x hx (execute_sound hres) _ hd ⟨d, rfl⟩

def seatedInvitation : Invitation where
  type := .privateInvite
  firstName := "A"
  lastName := "B"
  eventId := 7
  email := some "a@b.de"
  status := .accepted
  rsvpChoice := some .yes
  pendingContactId := some 0
  pendingContactPayload := some {
    firstName := "A", lastName := "B", invitationId := 0, email := some "a@b.de"
    phoneNumbers := [], eventId := 7, eventEndsAt := 0, tenantId := 1, locale := "de-DE"
    actorId := 0, seatId := some "S" }

def seatedWorld : World :=
  World.empty.setInvitations (InvitationTable.empty.insert seatedInvitation nofun)

def publicResendCall : Request := ⟨.requestGuestConfirmation {
  eventId := 7, firstName := "A", lastName := "B", identifier := "a@b.de" } "de-DE",
  { tenantId := some 1 }⟩

theorem confirmation_resends_counted_seated :
    (reminders 0 (trace plainConfig [publicResendCall] seatedWorld).2 : Int) ≤ 2 ∧
      resents 0 (trace plainConfig [publicResendCall] seatedWorld).2 = 1 ∧
      ∀ x, (trace plainConfig [publicResendCall] seatedWorld).2.row 0 = some x →
        x.confirmationResendCount = resents 0 (trace plainConfig [publicResendCall]
          seatedWorld).2 := by
  have hseated : Seated 0 seatedWorld := fun r p hr _ hp => by
    obtain rfl : seatedInvitation = r := Option.some_inj.1 hr
    obtain rfl := Option.some_inj.1 hp
    decide
  have hall : ∀ x ∈ (trace plainConfig [publicResendCall] seatedWorld).1,
      x.call = publicResendCall ∧ x.before = seatedWorld := fun x hx => by
    obtain rfl := List.mem_singleton.1 hx
    exact ⟨rfl, rfl⟩
  have h := confirmation_resends_counted (i := 0)
    (serial_trace [publicResendCall] seatedWorld (by decide) :
      (service plainConfig).Serial seatedWorld _ _)
    (r := seatedInvitation) rfl rfl (by decide) (by decide) (by decide)
    (fun x hx => by rw [(hall x hx).1]; exact id) (fun x hx _ => by
      rw [(hall x hx).2]; exact hseated)
  exact ⟨h.1, by decide, h.2 (reliable_trace _ _ (by decide)) fun x hx _ => by
    rw [(hall x hx).1]; rfl⟩

def remindedConfig : Config := { plainConfig with guestReminderMaxResends := 1 }

def reservedWorld : World := (trace remindedConfig (publicResendRun ++ [seatedCall]) .empty).2

def remindedRun : List Request := [⟨.job (.remind 0 none none), { tenantId := some 1 }⟩, seatedCall]

def World.cooled (w : World) : World :=
  { w with resendCooldown := Function.update w.resendCooldown 0 false }

def remindedOnce : World :=
  (trace remindedConfig remindedRun ({ reservedWorld with now := 1000 } : World).cooled).2

def remindedTwice : World := (trace remindedConfig remindedRun remindedOnce.cooled).2

theorem serial_remindedRun {w : World} (hnow : 1000 ≤ w.now)
    (hjob : .scheduled (.remind 0 none none) 1000 ∈ w.journal) :
    (service remindedConfig).Serial w (trace remindedConfig remindedRun w).1
      (trace remindedConfig remindedRun w).2 :=
  (System.Serial.start.run (S := service remindedConfig)
    ⟨.job (.remind 0 none none), { tenantId := some 1 }⟩ ⟨1000, hnow, hjob⟩ _).trans
    (serial_trace [seatedCall] _ (by decide))

/-- No stored payload names a seat: each reminder asks for one, is done again by the answer, and
counts for nothing. -/
theorem confirmation_resends_not_counted : ∃ h,
    (service remindedConfig).Serial .empty h remindedTwice ∧
      maxResends remindedConfig (remindedTwice.db.settings 7) < reminders 0 remindedTwice ∧
      resents 0 remindedTwice = 3 ∧
      (remindedTwice.row 0).map (·.confirmationResendCount) = some 0 := by
  have hpass : World.Environment reservedWorld { reservedWorld with now := 1000 } :=
    .pass (by decide +kernel)
  refine ⟨_, ((((serial_trace _ _ (by decide)).env hpass).env (.cool 0)).trans
    (serial_remindedRun (by decide +kernel) (by decide +kernel))).env (.cool 0) |>.trans
      (serial_remindedRun (by decide +kernel) (by decide +kernel)), ?_, ?_, ?_⟩
  · decide +kernel
  · decide +kernel
  · decide +kernel

end InvitationService

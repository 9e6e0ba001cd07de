import InvitationService.Invariants.Resend
import InvitationService.Lib.Throttle

namespace InvitationService.ConcurrentResend

open Resumption Query GuestConfirmation Throttle

/-! Confirmations of one invitation that are resent by several callers, one step at a time. -/

structure Caller where
  ctx : Context := {}
  actorId : Option UserId := none
  locale : Option Locale := none

/-- What `resendConfirmation` does before it looks at the cooldown. -/
def resendChecks (i : Nat) (locale : Option Locale) :
    Program (ResendReason ⊕ Invitation × PendingUser) := do
  match ← findInvitation i with
  | none => throw (.invitationNotFound i)
  | some invitation =>
    if invitation.guestProfileId.isSome then return .inl .alreadyRegistered
    if !actionable invitation.status then return .inl .invalidStatus
    let now ← clock
    if invitation.eventEndsAt.any (· ≤ now) then return .inl .eventEnded
    match invitation.pendingContactPayload with
    | none => return .inl .missingPayload
    | some stored => return .inr (invitation, overrideLocale stored locale)

def resendSends (cfg : Config) (ctx : Context) (i : Nat) (actorId : Option UserId)
    (invitation : Invitation) (payload : PendingUser) : Program ResendConfirmationResult := do
  if truthy payload.seatId then
    let token ← cacheSet payload
    persistSend i token payload true
    emitConfirmGuest cfg ctx invitation token payload.seatId actorId
      "Resend confirm guest notification"
  else
    let _ ← requestSeatReservation cfg ctx i actorId
  recordResentAnalytics ctx i
  note (.resent i)
  return .resent

abbrev Stride (β : Type) := (Nat → Bool) → World → Except Exception β × World

/-- Where a call stands: before one of its checks, before it looks at the cooldown, before it sets
it, before one of the steps that follow, or at its end. -/
inductive Stage
  | checks {β : Type} (x : Caller) (f : Stride β)
      (k : β → Program (ResendReason ⊕ Invitation × PendingUser))
  | look (x : Caller) (invitation : Invitation) (payload : PendingUser)
  | mark (x : Caller) (invitation : Invitation) (payload : PendingUser)
  | sends {β : Type} (f : Stride β) (k : β → Program ResendConfirmationResult)
  | ended (r : Except Exception ResendConfirmationResult)

namespace Stage

variable (cfg : Config) (i : Nat)

def enter (x : Caller) : Program (ResendReason ⊕ Invitation × PendingUser) → Stage
  | .ret (.ok (.inl reason)) => .ended (.ok (.skipped reason))
  | .ret (.ok (.inr (invitation, payload))) => .look x invitation payload
  | .ret (.error e) => .ended (.error e)
  | .step f k => .checks x f k

def leave : Program ResendConfirmationResult → Stage
  | .ret r => .ended r
  | .step f k => .sends f k

def lookProgram (x : Caller) (invitation : Invitation) (payload : PendingUser) :
    Program ResendConfirmationResult := do
  if ← inResendCooldown i then return .skipped .rateLimited
  setResendCooldown i
  resendSends cfg x.ctx i x.actorId invitation payload

def afterChecks (x : Caller) :
    ResendReason ⊕ Invitation × PendingUser → Program ResendConfirmationResult
  | .inl reason => return .skipped reason
  | .inr (invitation, payload) => lookProgram cfg i x invitation payload

def program : Stage → Program ResendConfirmationResult
  | .checks x f k => .step f k >>= afterChecks cfg i x
  | .look x invitation payload => lookProgram cfg i x invitation payload
  | .mark x invitation payload => do
    setResendCooldown i
    resendSends cfg x.ctx i x.actorId invitation payload
  | .sends f k => .step f k
  | .ended r => .ret r

/-- One step of the call; `c` says which of the external calls in it fail. -/
def advance (c : Nat → Bool) (w : World) : Stage → Option (Stage × World)
  | .checks x f k => some <| match f c w with
    | (.ok b, v) => (enter x (k b), v)
    | (.error e, v) => (.ended (.error e), v)
  | .look x invitation payload => some <| match (inResendCooldown i).run c w with
    | (.ok true, v) => (.ended (.ok (.skipped .rateLimited)), v)
    | (.ok false, v) => (.mark x invitation payload, v)
    | (.error e, v) => (.ended (.error e), v)
  | .mark x invitation payload => some <| match (setResendCooldown i).run c w with
    | (.ok (), v) => (leave (resendSends cfg x.ctx i x.actorId invitation payload), v)
    | (.error e, v) => (.ended (.error e), v)
  | .sends f k => some <| match f c w with
    | (.ok b, v) => (leave (k b), v)
    | (.error e, v) => (.ended (.error e), v)
  | .ended _ => none

def first (x : Caller) : Stage := enter x (resendChecks i x.locale)

theorem program_enter (x : Caller) (p : Program (ResendReason ⊕ Invitation × PendingUser)) :
    (enter x p).program cfg i = p >>= afterChecks cfg i x := by
  cases p with
  | step f k => rfl
  | ret r =>
    rcases r with e | reason | ⟨invitation, payload⟩ <;> rfl

theorem program_leave (p : Program ResendConfirmationResult) : (leave p).program cfg i = p := by
  cases p <;> rfl

theorem program_first (x : Caller) :
    (first i x).program cfg i = resendConfirmation cfg x.ctx i x.actorId x.locale := by
  rw [first, program_enter]
  unfold resendConfirmation resendChecks
  rw [Prog.bind_assoc]
  refine congrArg (_ >>= ·) (funext fun invitation => ?_)
  cases invitation with
  | none => rfl
  | some r =>
    dsimp only
    split
    · rfl
    · split
      · rfl
      · rw [Prog.bind_assoc]
        refine congrArg (_ >>= ·) (funext fun now => ?_)
        split
        · rfl
        · cases r.pendingContactPayload <;> rfl

inductive Advances (c : Nat → Bool) (w v : World) : Stage → Stage → Prop
  | checked {β : Type} {x : Caller} {f : Stride β}
      {k : β → Program (ResendReason ⊕ Invitation × PendingUser)} {b : β} :
      f c w = (.ok b, v) → Advances c w v (.checks x f k) (enter x (k b))
  | unchecked {β : Type} {x : Caller} {f : Stride β}
      {k : β → Program (ResendReason ⊕ Invitation × PendingUser)} {e : Exception} :
      f c w = (.error e, v) → Advances c w v (.checks x f k) (.ended (.error e))
  | limited {x : Caller} {invitation : Invitation} {payload : PendingUser} :
      (inResendCooldown i).run c w = (.ok true, v) →
      Advances c w v (.look x invitation payload) (.ended (.ok (.skipped .rateLimited)))
  | passed {x : Caller} {invitation : Invitation} {payload : PendingUser} :
      (inResendCooldown i).run c w = (.ok false, v) →
      Advances c w v (.look x invitation payload) (.mark x invitation payload)
  | unlooked {x : Caller} {invitation : Invitation} {payload : PendingUser} {e : Exception} :
      (inResendCooldown i).run c w = (.error e, v) →
      Advances c w v (.look x invitation payload) (.ended (.error e))
  | marked {x : Caller} {invitation : Invitation} {payload : PendingUser} :
      (setResendCooldown i).run c w = (.ok (), v) → Advances c w v (.mark x invitation payload)
        (leave (resendSends cfg x.ctx i x.actorId invitation payload))
  | unmarked {x : Caller} {invitation : Invitation} {payload : PendingUser} {e : Exception} :
      (setResendCooldown i).run c w = (.error e, v) →
      Advances c w v (.mark x invitation payload) (.ended (.error e))
  | sent {β : Type} {f : Stride β} {k : β → Program ResendConfirmationResult} {b : β} :
      f c w = (.ok b, v) → Advances c w v (.sends f k) (leave (k b))
  | unsent {β : Type} {f : Stride β} {k : β → Program ResendConfirmationResult} {e : Exception} :
      f c w = (.error e, v) → Advances c w v (.sends f k) (.ended (.error e))

theorem advance_cases {c : Nat → Bool} {w v : World} {st st' : Stage}
    (h : st.advance cfg i c w = some (st', v)) : Advances cfg i c w v st st' := by
  cases st with
  | checks x f k =>
    simp only [advance, Option.some.injEq] at h
    split at h <;> cases h
    · exact .checked ‹_›
    · exact .unchecked ‹_›
  | look x invitation payload =>
    simp only [advance, Option.some.injEq] at h
    split at h <;> cases h
    · exact .limited ‹_›
    · exact .passed ‹_›
    · exact .unlooked ‹_›
  | mark x invitation payload =>
    simp only [advance, Option.some.injEq] at h
    split at h <;> cases h
    · exact .marked ‹_›
    · exact .unmarked ‹_›
  | sends f k =>
    simp only [advance, Option.some.injEq] at h
    split at h <;> cases h
    · exact .sent ‹_›
    · exact .unsent ‹_›
  | ended r => cases h

/-- A step of a call is a step of what is left of its program. -/
theorem program_advance {c : Nat → Bool} {w v : World} {st st' : Stage}
    (h : st.advance cfg i c w = some (st', v)) :
    ∃ (β : Type) (f : Stride β) (k : β → Program ResendConfirmationResult),
      st.program cfg i = .step f k ∧ v = (f c w).2 ∧
        st'.program cfg i = match (f c w).1 with
          | .ok b => k b
          | .error e => .ret (.error e) := by
  cases advance_cases cfg i h with
  | @checked _ x f k b hf =>
    refine ⟨_, f, fun b => k b >>= afterChecks cfg i x, rfl, ?_⟩
    rw [hf]
    exact ⟨rfl, program_enter cfg i x _⟩
  | @unchecked _ x f k e hf =>
    refine ⟨_, f, fun b => k b >>= afterChecks cfg i x, rfl, ?_⟩
    rw [hf]
    exact ⟨rfl, rfl⟩
  | limited hc | passed hc | unlooked hc =>
    refine ⟨_, (inResendCooldown i).run, _, rfl, ?_⟩
    rw [hc]
    exact ⟨rfl, rfl⟩
  | marked hc =>
    refine ⟨_, (setResendCooldown i).run, _, rfl, ?_⟩
    rw [hc]
    exact ⟨rfl, program_leave cfg i _⟩
  | unmarked hc =>
    refine ⟨_, (setResendCooldown i).run, _, rfl, ?_⟩
    rw [hc]
    exact ⟨rfl, rfl⟩
  | @sent _ f k b hf =>
    refine ⟨_, f, k, rfl, ?_⟩
    rw [hf]
    exact ⟨rfl, program_leave cfg i _⟩
  | @unsent _ f k e hf =>
    refine ⟨_, f, k, rfl, ?_⟩
    rw [hf]
    exact ⟨rfl, rfl⟩

def phase : Stage → Option Phase
  | .checks .. | .look .. => none
  | .mark .. => some .passed
  | .sends .. => some .marked
  | .ended _ => some .ended

end Stage

def windowsAfter (n : Nat) : Stage → Stage → Windows → Windows
  | .look .., .mark .., window => opened window n
  | .mark .., .ended (.error _), window => closed window n
  | _, .ended (.ok .resent), window => served window n
  | _, _, window => window

structure State where
  shared : World
  stage : Nat → Option Stage := fun _ => none
  window : Windows := fun _ => none

def State.phase (s : State) (n : Nat) : Option Phase := (s.stage n).bind Stage.phase

/-- Calls arrive and take their steps; the cooldown expires; and what else happens, other requests
and what the callers do around their calls included, leaves the cooldown alone. -/
inductive Move
  | start (n : Nat) (x : Caller)
  | step (n : Nat) (fails : Nat → Bool)
  | expire
  | other (w : World)

def State.after (cfg : Config) (i : Nat) (s : State) : Move → Option State
  | .start n x =>
    if (s.stage n).isNone then
      some { s with stage := Function.update s.stage n (some (.first i x)) }
    else none
  | .step n fails => do
    let st ← s.stage n
    let (st', v) ← st.advance cfg i fails s.shared
    some ⟨v, Function.update s.stage n (some st'), windowsAfter n st st' s.window⟩
  | .expire => some { s with
      shared := { s.shared with
        resendCooldown := Function.update s.shared.resendCooldown i false }
      window := expired s.phase s.window }
  | .other w =>
    if w.resendCooldown i = s.shared.resendCooldown i then some { s with shared := w } else none

structure Step where
  before : State
  move : Move
  after : State

/-- Any number of calls from `w`, their steps in any order, the oldest first. -/
inductive Run (cfg : Config) (i : Nat) (w : World) : List Step → State → Prop
  | nil : Run cfg i w [] { shared := w }
  | snoc {h : List Step} {s t : State} {m : Move} :
      Run cfg i w h s → s.after cfg i m = some t → Run cfg i w (h ++ [⟨s, m, t⟩]) t

/-- A call that passes its check finds no other between its check and its end. -/
def Unrivalled (x : Step) : Prop :=
  ∀ n, x.before.phase n = none → x.after.phase n = some .passed → ∀ m, ¬ Busy (x.before.phase m)

variable {cfg : Config} {ctx : Context} {i n : Nat} {w v : World} {s t : State} {h : List Step}

def SameCooldown (i : Nat) (t u : World) : Prop := u.resendCooldown i = t.resendCooldown i

theorem SameCooldown.refl (t : World) : SameCooldown i t t := Eq.refl (t.resendCooldown i)

theorem SameCooldown.trans (t u v : World) (h : SameCooldown i t u) (k : SameCooldown i u v) :
    SameCooldown i t v := Eq.trans k h

def Spares {α : Type} (i : Nat) (p : Program α) : Prop :=
  ∀ w, p.Guarantees (fun _ _ => True) (SameCooldown i) (fun _ _ => True) w

section Spares

variable {α γ : Type} {p : Program α} {g : α → Program γ} {b : Query α}

theorem Spares.bind (hp : Spares i p) (hg : ∀ a, Spares i (g a)) : Spares i (p >>= g) := fun w =>
  Prog.Guarantees.bind <| (hp w).weaken fun o t _ => by
    cases o with
    | ok a => exact hg a t
    | error e => trivial

theorem spares_ret {r : Except Exception α} : Spares i (.ret r : Program α) := fun _ => trivial

theorem spares_perform (hb : b.Moves (SameCooldown i)) :
    Spares i (perform b) := fun _ =>
  guarantees_perform fun t _ => (hb t).mono fun _ _ h => ⟨h, trivial⟩

theorem spares_transaction (hb : b.Moves (SameCooldown i)) :
    Spares i (Query.transaction b) := fun _ =>
  guarantees_transaction fun t _ => (hb t).mono fun r u h => by
    cases r with
    | ok a => exact ⟨⟨h, trivial⟩, h, trivial⟩
    | error e => exact ⟨h, trivial⟩

theorem moves_call {f : World → Except Exception α × World} {e : Exception}
    (hf : ∀ w, (f w).2.resendCooldown i = w.resendCooldown i) :
    (Block.call e f).Moves (SameCooldown i) :=
  Block.moves_call SameCooldown.refl hf

theorem moves_bind {b' : α → Query γ} (hb : b.Moves (SameCooldown i))
    (hb' : ∀ a, (b' a).Moves (SameCooldown i)) :
    (b >>= b').Moves (SameCooldown i) :=
  hb.bind SameCooldown.trans hb'

end Spares

theorem spares_resendChecks {locale : Option Locale} : Spares i (resendChecks i locale) := by
  unfold resendChecks
  simp only [liftM_eq]
  refine (spares_perform (moves_call fun _ => rfl)).bind fun invitation => ?_
  cases invitation with
  | none => exact spares_ret
  | some r =>
    dsimp only
    split
    · exact spares_ret
    · split
      · exact spares_ret
      · refine (spares_perform (Block.moves_observe SameCooldown.refl)).bind fun now => ?_
        split
        · exact spares_ret
        · cases r.pendingContactPayload <;> exact spares_ret

theorem moves_updateInvitation {j : Nat} {d : InvitationUpdate} :
    (updateInvitation j d).Moves (SameCooldown i) :=
  moves_update SameCooldown.refl fun _ => rfl

theorem spares_requestSeatReservation {actorId : Option UserId} :
    Spares i (requestSeatReservation cfg ctx i actorId) := by
  unfold requestSeatReservation
  simp only [liftM_eq]
  refine (spares_perform (moves_call fun _ => rfl)).bind fun invitation => ?_
  cases invitation with
  | none => exact spares_ret
  | some r =>
    dsimp only
    split
    · exact spares_ret
    · split
      · exact spares_ret
      · exact (spares_perform (moves_call fun _ => rfl)).bind fun _ => spares_ret

theorem spares_recordResentAnalytics : Spares i (recordResentAnalytics ctx i) := by
  refine spares_transaction ?_
  unfold enqueue
  cases ctx.tenantId with
  | none => exact Prog.moves_ret SameCooldown.refl _
  | some tenantId => exact moves_call fun _ => rfl

theorem resendSends_spares {actorId : Option UserId} {r : Invitation} {p : PendingUser} :
    Spares i (resendSends cfg ctx i actorId r p) := by
  unfold resendSends
  simp only [liftM_eq]
  have hlast : Spares i (recordResentAnalytics ctx i >>= fun _ =>
      perform (note (.resent i)) >>= fun _ => .ret (.ok ResendConfirmationResult.resent)) := by
    refine spares_recordResentAnalytics.bind fun _ =>
      Spares.bind (spares_perform ?_) fun _ => spares_ret
    exact Block.moves_record fun _ => rfl
  split
  · refine (spares_perform (moves_call fun _ => rfl)).bind fun token => ?_
    refine (spares_perform ?_).bind fun _ => (spares_perform ?_).bind fun _ => hlast
    · exact moves_bind (Block.moves_observe SameCooldown.refl) fun _ =>
        moves_bind moves_updateInvitation fun _ => Prog.moves_ret SameCooldown.refl _
    · exact moves_bind (Block.moves_observe SameCooldown.refl) fun _ => moves_call fun _ => rfl
  · exact spares_requestSeatReservation.bind fun _ => hlast

theorem leave_resendSends (cfg : Config) (ctx : Context) (i : Nat) (actorId : Option UserId)
    (r : Invitation) (p : PendingUser) :
    (Stage.leave (resendSends cfg ctx i actorId r p)).phase = some .marked := by
  unfold resendSends
  split <;> rfl

namespace Stage

def Sound (i : Nat) : Stage → Prop
  | .checks _ f k => Spares i (.step f k)
  | .sends f k => Spares i (.step f k)
  | _ => True

variable {x : Caller} {c : Nat → Bool} {st st' : Stage}

theorem Sound.enter {p : Program (ResendReason ⊕ Invitation × PendingUser)} (h : Spares i p) :
    (enter x p).Sound i := by
  cases p with
  | step f k => exact h
  | ret r => rcases r with e | reason | ⟨invitation, payload⟩ <;> trivial

theorem Sound.leave {p : Program ResendConfirmationResult} (h : Spares i p) :
    (leave p).Sound i := by
  cases p with
  | step f k => exact h
  | ret r => trivial

theorem spares_step {α β : Type} {f : Stride β} {k : β → Program α} (h : Spares i (.step f k))
    (c : Nat → Bool) (w : World) : SameCooldown i w (f c w).2 ∧
      ∀ b v, f c w = (.ok b, v) → Spares i (k b) := by
  obtain ⟨hsame, hk⟩ := h w c w trivial
  refine ⟨hsame, fun b v hb => ?_⟩
  rw [hb] at hk
  dsimp only at hk
  cases hp : k b with
  | ret r => exact spares_ret
  | step f' k' =>
    rw [hp] at hk
    exact fun _ => hk

inductive Effect (i n : Nat) (w v : World) (window : Windows) (st st' : Stage) : Prop
  | same : SameCooldown i w v → st'.phase = st.phase → windowsAfter n st st' window = window →
      Effect i n w v window st st'
  | ended : SameCooldown i w v → st.phase ≠ some .passed → st'.phase = some .ended →
      windowsAfter n st st' window = window → Effect i n w v window st st'
  | pass : w.resendCooldown i = false → v = w → st.phase = none → st'.phase = some .passed →
      windowsAfter n st st' window = opened window n → Effect i n w v window st st'
  | mark : v.resendCooldown i = true → st.phase = some .passed → st'.phase = some .marked →
      windowsAfter n st st' window = window → Effect i n w v window st st'
  | drop : SameCooldown i w v → st.phase = some .passed → st'.phase = some .ended →
      windowsAfter n st st' window = closed window n → Effect i n w v window st st'
  | serve : SameCooldown i w v → st.phase = some .marked → st'.phase = some .ended →
      windowsAfter n st st' window = served window n → Effect i n w v window st st'

theorem windowsAfter_of_marked {window : Windows} (h : st'.phase = some .marked) :
    windowsAfter n st st' window = window := by
  cases st' with
  | sends f k => cases st <;> rfl
  | _ => cases h

theorem effect_enter {β : Type} {f : Stride β}
    {k : β → Program (ResendReason ⊕ Invitation × PendingUser)} {window : Windows}
    (hsame : SameCooldown i w v) (p : Program (ResendReason ⊕ Invitation × PendingUser)) :
    Effect i n w v window (.checks x f k) (.enter x p) := by
  cases p with
  | step f k => exact .same hsame rfl rfl
  | ret r =>
    rcases r with e | reason | ⟨invitation, payload⟩
    · exact .ended hsame nofun rfl rfl
    · exact .ended hsame nofun rfl rfl
    · exact .same hsame rfl rfl

theorem effect_leave {β : Type} {f : Stride β} {k : β → Program ResendConfirmationResult}
    {window : Windows} (hsame : SameCooldown i w v) (p : Program ResendConfirmationResult) :
    Effect i n w v window (.sends f k) (.leave p) := by
  cases p with
  | step f k => exact .same hsame rfl rfl
  | ret r =>
    rcases r with e | r
    · exact .ended hsame (by simp [phase]) rfl rfl
    · cases r with
      | resent => exact .serve hsame rfl rfl rfl
      | skipped reason => exact .ended hsame (by simp [phase]) rfl rfl

theorem run_inResendCooldown : (inResendCooldown i).run c w =
    if c 0 then (.error (.dependency .cache), w) else (.ok (w.resendCooldown i), w) := by
  cases hc : c 0 <;> simp [inResendCooldown, Block.call, Prog.run, hc]

theorem of_run_inResendCooldown {cooling : Bool}
    (h : (inResendCooldown i).run c w = (.ok cooling, v)) :
    w.resendCooldown i = cooling ∧ v = w := by
  rw [run_inResendCooldown] at h
  split at h <;> cases h
  exact ⟨rfl, rfl⟩

theorem run_setResendCooldown : (setResendCooldown i).run c w =
    if c 0 then (.error (.dependency .cache), w)
    else (.ok (), { w with resendCooldown := Function.update w.resendCooldown i true }) := by
  cases hc : c 0 <;> simp [setResendCooldown, Block.call, Prog.run, hc]

theorem advance_spec (hs : st.Sound i) (h : st.advance cfg i c w = some (st', v))
    (window : Windows) : st'.Sound i ∧ Effect i n w v window st st' := by
  cases advance_cases cfg i h with
  | checked hf =>
    obtain ⟨hsame, hk⟩ := spares_step hs c w
    rw [hf] at hsame hk
    exact ⟨.enter (hk _ _ rfl), effect_enter hsame _⟩
  | unchecked hf =>
    obtain ⟨hsame, -⟩ := spares_step hs c w
    rw [hf] at hsame
    exact ⟨trivial, .ended hsame nofun rfl rfl⟩
  | limited hc =>
    obtain ⟨-, rfl⟩ := of_run_inResendCooldown hc
    exact ⟨trivial, .ended (.refl _) nofun rfl rfl⟩
  | passed hc =>
    obtain ⟨hcool, rfl⟩ := of_run_inResendCooldown hc
    exact ⟨trivial, .pass hcool rfl rfl rfl rfl⟩
  | unlooked hc =>
    rw [run_inResendCooldown] at hc
    split at hc <;> cases hc
    exact ⟨trivial, .ended (.refl w) nofun rfl rfl⟩
  | @marked x invitation payload hc =>
    rw [run_setResendCooldown] at hc
    split at hc <;> cases hc
    have hmarked := leave_resendSends cfg x.ctx i x.actorId invitation payload
    exact ⟨.leave resendSends_spares,
      .mark (Function.update_self ..) rfl hmarked (windowsAfter_of_marked hmarked)⟩
  | unmarked hc =>
    rw [run_setResendCooldown] at hc
    split at hc <;> cases hc
    exact ⟨trivial, .drop (.refl w) rfl rfl rfl⟩
  | sent hf =>
    obtain ⟨hsame, hk⟩ := spares_step hs c w
    rw [hf] at hsame hk
    exact ⟨.leave (hk _ _ rfl), effect_leave hsame _⟩
  | unsent hf =>
    obtain ⟨hsame, -⟩ := spares_step hs c w
    rw [hf] at hsame
    exact ⟨trivial, .ended hsame (by simp [phase]) rfl rfl⟩

end Stage

theorem phase_update {st : Stage} {window : Windows} :
    (State.mk v (Function.update s.stage n (some st)) window).phase =
      Function.update s.phase n st.phase := by
  funext m
  simp only [State.phase]
  by_cases hm : m = n
  · rw [hm, Function.update_self, Function.update_self]
    rfl
  · rw [Function.update_of_ne hm, Function.update_of_ne hm]
    rfl

/-- The cooldown, the calls and the windows, while every call that passes is unrivalled. -/
structure Throttled (i : Nat) (s : State) : Prop where
  kept : Throttle.Kept (s.shared.resendCooldown i) s.phase s.window
  sound : ∀ n st, s.stage n = some st → st.Sound i

theorem Throttled.sound_update (hs : Throttled i s) {st : Stage} (hst : st.Sound i) (m : Nat)
    (st₁ : Stage) (hm : Function.update s.stage n (some st) m = some st₁) : st₁.Sound i := by
  by_cases hmn : m = n
  · rw [hmn, Function.update_self] at hm
    cases hm
    exact hst
  · rw [Function.update_of_ne hmn] at hm
    exact hs.sound m st₁ hm

theorem Throttled.advance (hs : Throttled i s) {st st' : Stage} {c : Nat → Bool}
    (hn : s.stage n = some st) (hadv : st.advance cfg i c s.shared = some (st', v))
    (hfree : st.phase = none → st'.phase = some .passed → ∀ m, ¬ Busy (s.phase m)) :
    Throttled i ⟨v, Function.update s.stage n (some st'), windowsAfter n st st' s.window⟩ := by
  obtain ⟨hsound, heff⟩ := Stage.advance_spec (n := n) (hs.sound n st hn) hadv s.window
  have hphase : s.phase n = st.phase := by rw [State.phase, hn]; rfl
  refine ⟨?_, hs.sound_update hsound⟩
  rw [phase_update]
  have hkept := hs.kept
  cases heff with
  | same hsame hst hw =>
    rw [hw, hst, ← hphase, Function.update_eq_self, show v.resendCooldown i = _ from hsame]
    exact hkept
  | ended hsame hst hst' hw =>
    rw [hw, hst', show v.resendCooldown i = _ from hsame]
    exact hkept.ended (hphase ▸ hst)
  | pass hcool hv hst hst' hw =>
    rw [hw, hst', hv, hcool]
    exact (hcool ▸ hkept).pass (hfree hst hst')
  | mark hcool hst hst' hw =>
    rw [hw, hst', hcool]
    exact hkept.mark (hphase.trans hst)
  | drop hsame hst hst' hw =>
    rw [hw, hst', show v.resendCooldown i = _ from hsame]
    exact hkept.drop (hphase.trans hst)
  | serve hsame hst hst' hw =>
    rw [hw, hst', show v.resendCooldown i = _ from hsame]
    exact hkept.serve (hphase.trans hst)

theorem Throttled.after (hs : Throttled i s) {m : Move} (hm : s.after cfg i m = some t)
    (hx : Unrivalled ⟨s, m, t⟩) : Throttled i t := by
  cases m with
  | start n x =>
    simp only [State.after] at hm
    split at hm
    · rename_i hnone
      have hnone : s.stage n = none := by simpa using hnone
      cases hm
      refine ⟨?_, hs.sound_update (.enter spares_resendChecks)⟩
      rw [phase_update, show (Stage.first i x).phase = s.phase n by rw [State.phase, hnone]; rfl,
        Function.update_eq_self]
      exact hs.kept
    · cases hm
  | step n c =>
    simp only [State.after, Option.bind_eq_bind, Option.bind_eq_some_iff, Option.some.injEq] at hm
    obtain ⟨st, hn, ⟨st', v⟩, hadv, rfl⟩ := hm
    have hphase : s.phase n = st.phase := by rw [State.phase, hn]; rfl
    refine hs.advance hn hadv fun hst hst' => hx n (hphase.trans hst) ?_
    rw [phase_update, Function.update_self]
    exact hst'
  | expire =>
    cases hm
    refine ⟨?_, hs.sound⟩
    show Throttle.Kept (Function.update s.shared.resendCooldown i false i) s.phase _
    rw [Function.update_self]
    exact hs.kept.expire
  | other u =>
    simp only [State.after] at hm
    split at hm
    · rename_i hu
      cases hm
      refine ⟨?_, hs.sound⟩
      rw [hu]
      exact hs.kept
    · cases hm

theorem throttled_of_run (hrun : Run cfg i w h s) (hx : ∀ x ∈ h, Unrivalled x) : Throttled i s := by
  induction hrun with
  | nil => exact {
      kept := Throttle.kept_start
      sound := fun n st hn => by cases hn }
  | @snoc h s t m _ hm ih =>
    exact (ih fun x hxh => hx x (List.mem_append_left _ hxh)).after hm (hx _ (by simp))

/-- From the check that a call passes until the cooldown it sets expires nothing is resent, but by
this call and once, as long as each call that passes is unrivalled. -/
theorem once_per_window (hrun : Run cfg i w h s) (hx : ∀ x ∈ h, Unrivalled x) {l : List Nat}
    (hn : s.window n = some l) : l = [] ∨ l = [n] := (throttled_of_run hrun hx).kept.once hn

def play (cfg : Config) (i : Nat) (s : State) : List Move → Option (List Step × State)
  | [] => some ([], s)
  | m :: ms => do
    let t ← s.after cfg i m
    let (h, u) ← play cfg i t ms
    return (⟨s, m, t⟩ :: h, u)

theorem Run.play (hrun : Run cfg i w h s) {ms : List Move} {g : List Step}
    (hms : play cfg i s ms = some (g, t)) : Run cfg i w (h ++ g) t := by
  induction ms generalizing s h g with
  | nil =>
    cases hms
    simpa using hrun
  | cons m ms ih =>
    simp only [ConcurrentResend.play, Option.bind_eq_bind, Option.bind_eq_some_iff] at hms
    obtain ⟨u, hm, ⟨g', v⟩, hg, hms⟩ := hms
    cases hms
    have := ih (hrun.snoc hm) hg
    rwa [List.append_assoc] at this

def Move.starts : Move → Option Nat
  | .start n _ => some n
  | _ => none

theorem State.after_among {ns : List Nat} (hs : ∀ k ∉ ns, s.stage k = none) {m : Move}
    (hm : s.after cfg i m = some t) (hstart : ∀ k ∈ m.starts, k ∈ ns) :
    ∀ k ∉ ns, t.stage k = none := by
  intro k hk
  cases m with
  | start k' x =>
    simp only [State.after] at hm
    split at hm
    · cases hm
      have hne : k ≠ k' := fun h => hk (h.symm ▸ hstart k' rfl)
      exact (Function.update_of_ne hne ..).trans (hs k hk)
    · cases hm
  | step k' c =>
    simp only [State.after, Option.bind_eq_bind, Option.bind_eq_some_iff, Option.some.injEq] at hm
    obtain ⟨st, hk', ⟨st', v⟩, -, rfl⟩ := hm
    refine (Function.update_of_ne (fun h => ?_) ..).trans (hs k hk)
    rw [← h, hs k hk] at hk'
    cases hk'
  | expire =>
    cases hm
    exact hs k hk
  | other u =>
    simp only [State.after] at hm
    split at hm
    · cases hm
      exact hs k hk
    · cases hm

def UnrivalledAmong (ns : List Nat) (x : Step) : Prop :=
  ∀ n ∈ ns, x.before.phase n = none → x.after.phase n = some .passed →
    ∀ m ∈ ns, ¬ Busy (x.before.phase m)

instance (ns : List Nat) (x : Step) : Decidable (UnrivalledAmong ns x) :=
  inferInstanceAs (Decidable (∀ n ∈ ns, _ → _ → ∀ m ∈ ns, ¬ (_ ∨ _)))

theorem unrivalled_of_among (ns : List Nat) (hrun : Run cfg i w h s)
    (hstart : ∀ x ∈ h, ∀ k ∈ x.move.starts, k ∈ ns) (hx : ∀ x ∈ h, UnrivalledAmong ns x) :
    (∀ k ∉ ns, s.stage k = none) ∧ ∀ x ∈ h, Unrivalled x := by
  induction hrun with
  | nil => exact ⟨fun _ _ => rfl, by simp⟩
  | @snoc h s t m hrun hm ih =>
    obtain ⟨hs, hall⟩ := ih (fun x hxm => hstart x (List.mem_append_left _ hxm))
      fun x hxm => hx x (List.mem_append_left _ hxm)
    have ht := State.after_among hs hm (hstart ⟨s, m, t⟩ (by simp))
    refine ⟨ht, fun x hxm => ?_⟩
    rcases List.mem_append.1 hxm with hxm | hxm
    · exact hall x hxm
    · obtain rfl := List.mem_singleton.1 hxm
      intro n hn hpass j
      have hmem : n ∈ ns := by
        by_contra hno
        rw [State.phase, ht n hno] at hpass
        cases hpass
      by_cases hj : j ∈ ns
      · exact hx ⟨s, m, t⟩ (by simp) n hmem hn hpass j hj
      · rw [State.phase, hs j hj]
        exact not_busy_none

def guestCall : Caller := { ctx := { tenantId := some 1 } }

def go (n : Nat) : Move := .step n fun _ => false

def Stage.answer : Stage → Option ResendConfirmationResult
  | .ended r => r.toOption
  | _ => none

theorem once_per_window_lone : ∃ h s, Run plainConfig 0 seatedWorld h s ∧ s.window 0 = some [0] ∧
    (s.stage 1).bind Stage.answer = some (.skipped .rateLimited) := by
  have hplay : (play plainConfig 0 { shared := seatedWorld }
      (.start 0 guestCall :: (List.replicate 9 0).map go ++
        .start 1 guestCall :: (List.replicate 3 1).map go)).any (fun x =>
        ((x.2.window 0).any (· ≠ []) &&
          (x.2.stage 1).bind Stage.answer = some (.skipped .rateLimited)) &&
        (x.1.all (fun y => y.move.starts.all (· ∈ [0, 1])) &&
          decide (∀ y ∈ x.1, UnrivalledAmong [0, 1] y))) = true := by
    decide +kernel
  obtain ⟨⟨h, s⟩, hx, hok⟩ := (Option.any_eq_true _ _).1 hplay
  obtain ⟨hfound, hcalls⟩ := Bool.and_eq_true_iff.1 hok
  obtain ⟨hw, hrefused⟩ := Bool.and_eq_true_iff.1 hfound
  obtain ⟨hstart, hamong⟩ := Bool.and_eq_true_iff.1 hcalls
  obtain ⟨l, hl, hne⟩ := (Option.any_eq_true _ _).1 hw
  have hrun : Run plainConfig 0 seatedWorld h s := Run.nil.play hx
  have hunrivalled := unrivalled_of_among [0, 1] hrun (fun y hy k hk => by
    have := (Option.all_eq_true _ _).1 (List.all_eq_true.1 hstart y hy) k hk
    exact of_decide_eq_true this) (of_decide_eq_true hamong)
  have honce := once_per_window hrun hunrivalled.2 hl
  rw [honce.resolve_left (of_decide_eq_true hne)] at hl
  exact ⟨h, s, hrun, hl, of_decide_eq_true hrefused⟩

/-- Two calls that look before either has set the cooldown, and both resend. -/
theorem not_once_per_window : ¬ ∀ w h s, Run plainConfig 0 w h s →
    ∀ n l, s.window n = some l → l = [] ∨ l = [n] := by
  intro hall
  have hplay : (play plainConfig 0 { shared := seatedWorld }
      ([.start 0 guestCall, .start 1 guestCall] ++
        [0, 0, 1, 1, 0, 1, 0, 1, 0, 0, 0, 0, 0, 1, 1, 1, 1, 1].map go)).any
          (fun x => x.2.window 0 = some [1, 0]) = true := by decide +kernel
  obtain ⟨⟨h, s⟩, hx, hw⟩ := (Option.any_eq_true _ _).1 hplay
  exact absurd (hall _ h s (Run.nil.play hx) 0 _ (of_decide_eq_true hw)) (by decide)

end InvitationService.ConcurrentResend

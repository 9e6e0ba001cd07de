import InvitationService.Invariants.Status

open Relation (ReflTransGen)

namespace InvitationService

open Resumption Query GuestConfirmation

/-- A request that names the locale of the confirmation: staff's decision, the ticket job and
the resend. -/
inductive ConfirmationRequest
  | approve (input : ApproveInvitationDTO)
  | ticket (invitationId : Nat) (seatId : Option SeatId) (actorId : UserId)
  | resend (invitationId : Nat) (actorId : Option UserId)
  deriving DecidableEq, Repr

structure Draft where
  id : Nat
  eventId : EventId
  eventName : Option String
  eventEndsAt : Option Nat
  pendingContactId : Option Nat
  pendingContactPayload : Option PendingUser
  deriving DecidableEq, Repr

def Invitation.draft (r : Invitation) : Draft :=
  ⟨r.id, r.eventId, r.eventName, r.eventEndsAt, r.pendingContactId, r.pendingContactPayload⟩

def confirmationOf (r : Invitation) (token now : Nat) (seatId : Option SeatId)
    (operation : String) : Message :=
  .confirmGuest r.id r.eventId token (r.eventName.getD "") seatId (r.eventEndsAt.getD now) operation

namespace ConfirmationRequest

def invitationId : ConfirmationRequest → Nat
  | .approve input => input.id
  | .ticket i _ _ => i
  | .resend i _ => i

/-- Whether the seat is known: the request names it, or the contact to resend to does. -/
def knowsSeat : ConfirmationRequest → Draft → Bool
  | .approve input, _ => truthy input.seatId
  | .ticket _ seatId _, _ => truthy seatId
  | .resend .., d => d.pendingContactPayload.any fun p => truthy p.seatId

def ticketSeat : ConfirmationRequest → Option (Option SeatId)
  | .approve input => some input.seatId
  | _ => none

def program (cfg : Config) (ctx : Context) (l : Locale) : ConfirmationRequest → Program Unit
  | .approve input => do
    let _ ← AdminWrite.approve cfg ctx { input with locale := some l }
  | .ticket i seatId actorId => generateTicket cfg ctx i seatId actorId (some l)
  | .resend i actorId => do
    let _ ← resendConfirmation cfg ctx i actorId (some l)

end ConfirmationRequest

def World.Adds (s v : World) (x : Effect) : Prop := ∃ es, v.journal = es ++ s.journal ∧ x ∈ es

/-- What `q` leads to from `w`, with no other request in between: its own run, that of the ticket
job it schedules, and that of `handleReserved` on the answer to the seat it asks for.  The last of
these took `s` to `v`. -/
inductive Leads (cfg : Config) (l : Locale) (q : ConfirmationRequest) (w : World) :
    World → World → Prop
  | own (ctx : Context) (c : Nat → Nat → Bool) :
      Leads cfg l q w w ((q.program cfg ctx l).run c w).2
  | ticket {s t u : World} {i : Nat} {e : EventId} {seatId : Option SeatId} {actorId : UserId}
      {locale : Option Locale} {due : Nat} (ctx : Context) (c : Nat → Nat → Bool) :
      Leads cfg l q w s t → s.Adds t (.scheduled (.generateTicket i e seatId actorId locale) due) →
      ReflTransGen World.Environment t u →
      Leads cfg l q w u ((generateTicket cfg ctx i seatId actorId locale).run c u).2
  | reserved {s t u : World} {payload : SeatReserveDTO} {actorId : Option UserId}
      {tenantId : TenantId} (ctx : Context) (c : Nat → Nat → Bool) (seatId : SeatId)
      (actorId' : Option UserId) :
      Leads cfg l q w s t → s.Adds t (.produced (.seatReserve payload) actorId tenantId) →
      ReflTransGen World.Environment t u →
      Leads cfg l q w u ((handleReserved cfg ctx
        ⟨payload.eventId, payload.invitationId, seatId, actorId'⟩).run c u).2

def Effect.Idle : Effect → Prop
  | .produced (.confirmGuest ..) _ _ => False
  | .produced (.seatReserve _) _ _ => False
  | .scheduled (.generateTicket ..) _ => False
  | _ => True

namespace ConfirmationLocale

def Idles (s t : World) : Prop := ∃ es, t.journal = es ++ s.journal ∧ ∀ x ∈ es, x.Idle

theorem Idles.trans (s t u : World) (h : Idles s t) (k : Idles t u) : Idles s u := by
  obtain ⟨es, hes, hi⟩ := h
  obtain ⟨fs, hfs, hj⟩ := k
  refine ⟨fs ++ es, by rw [hfs, hes, List.append_assoc], fun x hx => ?_⟩
  exact (List.mem_append.1 hx).elim (hj x) (hi x)

theorem Idles.of_eq {s t : World} (h : t.journal = s.journal) : Idles s t := ⟨[], h, by simp⟩

theorem Idles.log {w : World} {x : Effect} (hx : x.Idle) : Idles w (w.log x) :=
  ⟨[x], rfl, by simpa using hx⟩

theorem drafted {o o' : Option Invitation} (h : o.map Invitation.draft = o'.map Invitation.draft)
    {r : Invitation} (hr : o' = some r) : ∃ r', o = some r' ∧ r'.draft = r.draft := by
  rw [hr] at h
  exact Option.map_eq_some_iff.1 h

structure Preserves (i : Nat) (s t : World) : Prop where
  row : (t.row i).map Invitation.draft = (s.row i).map Invitation.draft
  contact : ∀ token p, t.pendingContact token = some p → s.pendingContact token = some p

namespace Preserves

variable {i : Nat} {s t u : World}

theorem refl (s : World) : Preserves i s s := ⟨rfl, fun _ _ h => h⟩

theorem trans (h : Preserves i s t) (k : Preserves i t u) : Preserves i s u :=
  ⟨k.row.trans h.row, fun _ _ hp => h.contact _ _ (k.contact _ _ hp)⟩

theorem log (w : World) (x : Effect) : Preserves i w (w.log x) := ⟨rfl, fun _ _ h => h⟩

theorem of_environment (h : World.Environment s t) : Preserves i s t := by
  cases h with
  | forget token =>
    refine ⟨rfl, fun token' p hp => ?_⟩
    by_cases he : token' = token
    · subst he
      simp [World.dropPending] at hp
    · simpa [World.dropPending, he] using hp
  | _ => exact ⟨rfl, fun _ _ h => h⟩

theorem of_environments (h : ReflTransGen World.Environment s t) : Preserves i s t := by
  induction h with
  | refl => exact .refl _
  | tail _ he ih => exact ih.trans (.of_environment he)

theorem row_some (h : Preserves i s t) {r : Invitation} (hr : t.row i = some r) :
    ∃ r', s.row i = some r' ∧ r'.draft = r.draft := drafted h.row.symm hr

theorem stored (h : Preserves i s t) {r r' : Invitation} (hd : r'.draft = r.draft)
    {p : PendingUser} (hp : StoredContact r p t) : StoredContact r' p s := by
  have hpayload : r'.pendingContactPayload = r.pendingContactPayload :=
    congrArg (·.pendingContactPayload) hd
  have hid : r'.pendingContactId = r.pendingContactId := congrArg (·.pendingContactId) hd
  rcases hp with hp | ⟨token, hnone, htoken, hp⟩
  · exact .inl (hpayload.trans hp)
  · exact .inr ⟨token, hpayload.trans hnone, hid.trans htoken, h.contact _ _ hp⟩

end Preserves

structure Quietly (i : Nat) (s t : World) : Prop where
  idles : Idles s t
  row : (t.row i).map Invitation.draft = (s.row i).map Invitation.draft
  pendingContact : t.pendingContact = s.pendingContact
  now : t.now = s.now

namespace Quietly

variable {i : Nat}

theorem refl (s : World) : Quietly i s s := ⟨.of_eq rfl, rfl, rfl, rfl⟩

theorem trans (s t u : World) (h : Quietly i s t) (k : Quietly i t u) : Quietly i s u :=
  ⟨h.idles.trans _ _ _ k.idles, k.row.trans h.row, k.pendingContact.trans h.pendingContact,
    k.now.trans h.now⟩

theorem log {w : World} {x : Effect} (hx : x.Idle) : Quietly i w (w.log x) :=
  ⟨.log hx, rfl, rfl, rfl⟩

theorem preserves {s t : World} (h : Quietly i s t) : Preserves i s t :=
  ⟨h.row, fun _ _ hp => h.pendingContact ▸ hp⟩

end Quietly

abbrev Quiet (i : Nat) (p : Program α) : Prop := p.Drifts Eq (Quietly i)

section Quiet

variable {i : Nat} {cfg : Config} {ctx : Context}

theorem quiet_perform {b : Query α} (hb : b.Moves (Quietly i)) : Quiet i (perform b) :=
  drifts_perform Quietly.trans (fun _ _ h => h ▸ .refl _) hb

theorem quietly_call {e : Exception} {f : World → Except Exception α × World}
    (h : ∀ w, Quietly i w (f w).2) : (Block.call e f).Moves (Quietly i) :=
  Block.moves_call Quietly.refl h

theorem quiet_ret (r : Except Exception α) : Quiet i (.ret r : Program α) :=
  Prog.drifts_ret Quietly.refl r

theorem Quiet.bind {p : Program α} {g : α → Program β} (hp : Quiet i p) (hg : ∀ a, Quiet i (g a)) :
    Quiet i (p >>= g) := Prog.Drifts.bind Quietly.trans hp hg

theorem quiet_findInvitation {j : Nat} : Quiet i (perform (findInvitation j)) :=
  quiet_perform (quietly_call Quietly.refl)

theorem quiet_findSettings {e : EventId} : Quiet i (perform (findSettings e)) :=
  quiet_perform (quietly_call Quietly.refl)

theorem quiet_clock : Quiet i (perform clock) := quiet_perform (Block.moves_observe Quietly.refl)

theorem quiet_note {x : Effect} (hx : x.Idle) : Quiet i (perform (note x)) :=
  quiet_perform (Block.moves_record fun _ => .log hx)

theorem quiet_remind {j : Nat} {actorId : Option UserId} {preset : Option String} {delayMs : Nat} :
    Quiet i (perform (schedule (.remind j actorId preset) delayMs)) :=
  quiet_perform (quietly_call fun _ => .log trivial)

theorem quiet_inResendCooldown {j : Nat} : Quiet i (perform (inResendCooldown j)) :=
  quiet_perform (quietly_call Quietly.refl)

theorem quiet_setResendCooldown {j : Nat} : Quiet i (perform (setResendCooldown j)) :=
  quiet_perform (quietly_call fun _ => ⟨.of_eq rfl, rfl, rfl, rfl⟩)

theorem quiet_acquireLock {l : Lock} : Quiet i (perform (acquireLock l)) :=
  quiet_perform <| quietly_call fun w => by
    split
    · exact .refl w
    · exact ⟨.of_eq rfl, rfl, rfl, rfl⟩

theorem quiet_releaseLock {l : Lock} {token : Nat} : Quiet i (perform (releaseLock l token)) :=
  quiet_perform <| quietly_call fun w => by
    split
    · exact ⟨.of_eq rfl, rfl, rfl, rfl⟩
    · exact .refl w

theorem quiet_publishMilestone {e : EventId} {type : Milestone} {occurredAt referenceId : Nat}
    {actorId : Option UserId} :
    Quiet i (perform (AdminWrite.publishMilestone cfg ctx e type occurredAt referenceId actorId)) :=
  quiet_perform (quietly_call fun _ => .log trivial)

theorem quiet_checkApproval {input : ApproveInvitationDTO} :
    Quiet i (perform (AdminWrite.checkApproval input)) :=
  quiet_perform (AdminWrite.looks_checkApproval.moves Quietly.refl)

theorem quiet_grantGuestAccess {e : EventId} {u actorId : UserId} :
    Quiet i (perform (grantGuestAccess e u actorId)) :=
  quiet_perform (quietly_call fun _ => .log trivial)

theorem quiet_recordResentAnalytics {j : Nat} : Quiet i (recordResentAnalytics ctx j) := by
  refine drifts_transaction Quietly.trans (fun _ _ h => h ▸ .refl _) ?_ fun t u h =>
    ⟨h.idles, rfl, h.pendingContact, h.now⟩
  unfold enqueue
  split
  · exact Prog.moves_ret Quietly.refl _
  · exact quietly_call fun _ => ⟨.of_eq rfl, rfl, rfl, rfl⟩

theorem quiet_scheduleReminders {j : Nat} {actorId : Option UserId} :
    Quiet i (scheduleReminders cfg j actorId) := by
  unfold scheduleReminders settingsOf
  simp only [liftM_eq]
  refine quiet_findInvitation.bind fun invitation => Quiet.bind ?_ fun settings => ?_
  · cases invitation with
    | none => exact quiet_ret _
    | some r => exact quiet_findSettings
  · refine quiet_clock.bind fun now => ?_
    split
    · exact .forM Quietly.refl Quietly.trans fun _ _ => quiet_remind
    · exact .ite (quiet_ret _) quiet_remind

theorem quiet_writeApproval {input : ApproveInvitationDTO} :
    Quiet i (perform (AdminWrite.writeApproval input)) := by
  refine quiet_perform ?_
  refine Prog.Moves.bind Quietly.trans (Block.moves_observe Quietly.refl) fun approvedAt => ?_
  refine Prog.Moves.bind Quietly.trans (moves_update Quietly.refl fun w => ?_) fun updated => ?_
  · refine ⟨.of_eq rfl, ?_, rfl, rfl⟩
    by_cases hi : i = input.id
    · subst hi
      rw [World.setInvitations_row, InvitationTable.patch_row_self, Option.map_map]
      rfl
    · rw [World.setInvitations_row, InvitationTable.patch_row_of_ne hi]
  · exact Prog.Moves.bind Quietly.trans (Block.moves_record fun _ => .log trivial) fun _ =>
      Prog.moves_ret Quietly.refl _

end Quiet

structure Route where
  knowsSeat : Draft → Bool
  ticketSeat : Option (Option SeatId)
  locale : Option Locale

def Route.of (q : ConfirmationRequest) (l : Locale) : Route := ⟨q.knowsSeat, q.ticketSeat, some l⟩

def Route.reserved : Route := ⟨fun _ => true, none, none⟩

theorem overrideLocale_seatId (p : PendingUser) (locale : Option Locale) :
    (overrideLocale p locale).seatId = p.seatId := by
  unfold overrideLocale
  split
  · split <;> rfl
  · rfl

theorem confirmationOf_congr {r r' : Invitation} (h : r'.draft = r.draft) :
    confirmationOf r' = confirmationOf r := by
  cases r
  cases r'
  cases h
  rfl

def Accounts (k : Route) (i : Nat) (s v : World) : Effect → Prop
  | .produced (.confirmGuest j e token eventName seatId endsAt operation) _ _ =>
    ∃ r stored, s.row i = some r ∧ k.knowsSeat r.draft = true ∧ StoredContact r stored s ∧
      .confirmGuest j e token eventName seatId endsAt operation =
        confirmationOf r token v.now seatId operation ∧
      v.pendingContact token = some (overrideLocale stored k.locale)
  | .produced (.seatReserve payload) _ _ =>
    payload.invitationId = i ∧ (∃ r, s.row i = some r ∧ k.knowsSeat r.draft = false) ∧
      Preserves i s v
  | .scheduled (.generateTicket j _ seatId _ locale) _ =>
    j = i ∧ k.ticketSeat = some seatId ∧ locale = k.locale ∧ Preserves i s v
  | _ => True

def Says (k : Route) (i : Nat) (s v : World) : Prop :=
  ∃ es, v.journal = es ++ s.journal ∧ ∀ x ∈ es, Accounts k i s v x

section

variable {k : Route} {i : Nat} {s t u : World} {x : Effect}

theorem accounts_of_idle (hx : x.Idle) : Accounts k i s t x := by
  cases x with
  | produced m _ _ => cases m <;> first | exact hx.elim | trivial
  | scheduled j _ => cases j <;> first | exact hx.elim | trivial
  | _ => trivial

theorem says_of_idles (h : Idles s t) : Says k i s t :=
  h.imp fun _ hes => ⟨hes.1, fun x hx => accounts_of_idle (hes.2 x hx)⟩

theorem Idles.says_log (h : Idles s t) (hx : Accounts k i s (t.log x) x) :
    Says k i s (t.log x) := by
  obtain ⟨es, hes, hi⟩ := h
  refine ⟨x :: es, by simp [hes], fun y hy => ?_⟩
  rcases List.mem_cons.1 hy with rfl | hy
  · exact hx
  · exact accounts_of_idle (hi y hy)

theorem Accounts.after (hx : Accounts k i t u x) (h : Quietly i s t) : Accounts k i s u x := by
  cases x with
  | produced m _ _ =>
    cases m with
    | confirmGuest =>
      obtain ⟨r, stored, hr, hk, hp, hm, hc⟩ := hx
      obtain ⟨r', hr', hd⟩ := h.preserves.row_some hr
      exact ⟨r', stored, hr', hd ▸ hk, h.preserves.stored hd hp, confirmationOf_congr hd ▸ hm, hc⟩
    | seatReserve =>
      obtain ⟨hi, ⟨r, hr, hk⟩, hp⟩ := hx
      obtain ⟨r', hr', hd⟩ := h.preserves.row_some hr
      exact ⟨hi, ⟨r', hr', hd ▸ hk⟩, h.preserves.trans hp⟩
    | _ => trivial
  | scheduled j _ =>
    cases j with
    | generateTicket => exact ⟨hx.1, hx.2.1, hx.2.2.1, h.preserves.trans hx.2.2.2⟩
    | remind => trivial
  | _ => trivial

theorem Accounts.before (hx : Accounts k i s t x) (h : Quietly i t u) : Accounts k i s u x := by
  cases x with
  | produced m _ _ =>
    cases m with
    | confirmGuest =>
      obtain ⟨r, stored, hr, hk, hp, hm, hc⟩ := hx
      exact ⟨r, stored, hr, hk, hp, h.now ▸ hm, h.pendingContact ▸ hc⟩
    | seatReserve => exact ⟨hx.1, hx.2.1, hx.2.2.trans h.preserves⟩
    | _ => trivial
  | scheduled j _ =>
    cases j with
    | generateTicket => exact ⟨hx.1, hx.2.1, hx.2.2.1, hx.2.2.2.trans h.preserves⟩
    | remind => trivial
  | _ => trivial

theorem Says.after (h : Says k i t u) (hq : Quietly i s t) : Says k i s u := by
  obtain ⟨fs, hfs, hj⟩ := h
  obtain ⟨es, hes, hi⟩ := hq.idles
  refine ⟨fs ++ es, by rw [hfs, hes, List.append_assoc], fun x hx => ?_⟩
  rcases List.mem_append.1 hx with hx | hx
  · exact (hj x hx).after hq
  · exact accounts_of_idle (hi x hx)

theorem Says.before (h : Says k i s t) (hq : Quietly i t u) : Says k i s u := by
  obtain ⟨es, hes, hi⟩ := h
  obtain ⟨fs, hfs, hj⟩ := hq.idles
  refine ⟨fs ++ es, by rw [hfs, hes, List.append_assoc], fun x hx => ?_⟩
  rcases List.mem_append.1 hx with hx | hx
  · exact accounts_of_idle (hj x hx)
  · exact (hi x hx).before hq

end

abbrev Tells (k : Route) (i : Nat) (p : Program α) (s : World) : Prop :=
  p.Guarantees Eq (fun _ _ => True) (fun _ v => Says k i s v) s

section Tells

variable {k : Route} {i : Nat} {s t : World} {cfg : Config} {ctx : Context}

theorem Quiet.tells {p : Program α} (hp : Quiet i p) : Tells k i p s :=
  (hp s).weaken fun _ _ h => says_of_idles h.idles

theorem tells_ret (r : Except Exception α) : Tells k i (.ret r : Program α) s := (quiet_ret r).tells

theorem Quiet.seq {p : Program α} {g : α → Program β} (hp : Quiet i p)
    (hg : ∀ a t, Quietly i s t → Tells k i (g a) t) : Tells k i (p >>= g) s :=
  Prog.Guarantees.bind <| (hp s).weaken fun r t hq => by
    cases r with
    | ok a => exact (hg a t hq).weaken fun _ _ h => h.after hq
    | error e => exact says_of_idles hq.idles

theorem Tells.seq {p : Program α} {g : α → Program β} (hp : Tells k i p s)
    (hg : ∀ a, Quiet i (g a)) : Tells k i (p >>= g) s :=
  Prog.Guarantees.bind <| hp.weaken fun r t hs => by
    cases r with
    | ok a => exact (hg a t).weaken fun _ _ hq => hs.before hq
    | error e => exact hs

theorem Tells.ite {P : Prop} [Decidable P] {p q : Program α} (hp : Tells k i p s)
    (hq : Tells k i q s) : Tells k i (if P then p else q) s := by
  split
  · exact hp
  · exact hq

theorem tells_call {e : Exception} {f : World → Except Exception β × World} {a : β}
    {g : β → Program α} (hf : f s = (.ok a, t))
    (h : (g a).Guarantees Eq (fun _ _ => True) (fun _ v => Says k i s v) t) :
    Tells k i (perform (Block.call e f) >>= g) s := by
  refine Prog.Guarantees.bind <| guarantees_perform fun _ hs => Block.post_call.2 ?_
  subst hs
  rw [hf]
  exact ⟨⟨trivial, says_of_idles (.of_eq rfl)⟩, trivial, h⟩

section Programs

variable {r r' : Invitation} {stored : PendingUser} {seatId : Option SeatId}
  {actorId : Option UserId}

theorem tells_dispatch {inc : Bool} {operation : String} {rest : Unit → Program α}
    (hr : s.row i = some r') (hd : r'.draft = r.draft) (hk : k.knowsSeat r'.draft = true)
    (hp : StoredContact r' stored s) (hrest : ∀ x, Quiet i (rest x)) :
    Tells k i (perform (cacheSet (overrideLocale stored k.locale)) >>= fun token =>
      perform (persistSend i token (overrideLocale stored k.locale) inc) >>= fun _ =>
      perform (emitConfirmGuest cfg ctx r token seatId actorId operation) >>= rest) s := by
  refine tells_call rfl <| Prog.Guarantees.bind <| guarantees_perform fun _ hu => ?_
  subst hu
  have hcached : Says k i s (s.cachePending (overrideLocale stored k.locale)) :=
    says_of_idles (.of_eq rfl)
  simp only [persistSend, Prog.post_bind, post_clock, post_updateInvitation]
  refine ⟨⟨trivial, hcached⟩, fun _ _ => ⟨trivial, ?_⟩, fun _ => ⟨trivial, hcached⟩⟩
  refine Prog.Guarantees.bind <| guarantees_perform fun u hu => ?_
  have hidle : Idles s u := .of_eq (by rw [← hu]; rfl)
  have htoken : u.pendingContact s.nextToken = some (overrideLocale stored k.locale) := by
    rw [← hu]
    exact World.cachePending_self ..
  simp only [emitConfirmGuest, Prog.post_bind, post_clock, post_send]
  refine ⟨⟨trivial, says_of_idles hidle⟩, trivial,
    (hrest () _).weaken fun _ _ h => Says.before ?_ h⟩
  exact hidle.says_log (show Accounts k i s _ (.produced (confirmationOf ..) _ _) from
    ⟨r', stored, hr, hk, hp, by rw [confirmationOf_congr hd]; rfl, htoken⟩)

theorem tells_findInvitation {g : Option Invitation → Program α}
    (h : Tells k i (g (s.row i)) s) : Tells k i (perform (findInvitation i) >>= g) s :=
  tells_call rfl h

theorem tells_resolvePendingContactPayload {g : Option PendingUser → Program α}
    (hnone : Tells k i (g none) s)
    (hsome : ∀ stored, StoredContact r stored s → Tells k i (g (some stored)) s) :
    Tells k i (resolvePendingContactPayload r >>= g) s := by
  unfold resolvePendingContactPayload
  split
  · rename_i stored hp
    exact hsome stored (.inl hp)
  · exact hnone
  · rename_i token hp htoken
    refine tells_call rfl ?_
    cases ho : s.pendingContact token with
    | none => exact hnone
    | some stored => exact hsome stored (.inr ⟨token, hp, htoken, ho⟩)

theorem tells_sendFirstConfirmation (hk : ∀ d, k.knowsSeat d = true) :
    Tells k i (sendFirstConfirmation cfg ctx i seatId actorId k.locale) s := by
  unfold sendFirstConfirmation
  simp only [liftM_eq]
  refine tells_findInvitation ?_
  cases hr : s.row i with
  | none => exact tells_ret _
  | some r =>
    refine .ite (tells_ret _) (.ite (tells_ret _) (.ite (tells_ret _) ?_))
    exact tells_resolvePendingContactPayload (tells_ret _) fun stored hp =>
      tells_dispatch hr rfl (hk _) hp fun _ => quiet_scheduleReminders.bind fun _ => quiet_ret _

theorem tells_requestSeatReservation (hk : ∀ r, s.row i = some r → k.knowsSeat r.draft = false) :
    Tells k i (requestSeatReservation cfg ctx i actorId) s := by
  unfold requestSeatReservation
  simp only [liftM_eq]
  refine tells_findInvitation ?_
  cases hr : s.row i with
  | none => exact tells_ret _
  | some r =>
    refine .ite (tells_ret _) (.ite (tells_ret _) (Tells.seq ?_ fun _ => quiet_ret _))
    refine guarantees_perform fun _ ht => post_send.2 ?_
    subst ht
    exact ⟨⟨trivial, says_of_idles (.of_eq rfl)⟩, trivial, (Idles.of_eq rfl).says_log
      (show Accounts k i s _ (.produced (.seatReserve _) _ _) from
        ⟨rfl, ⟨r, hr, hk r hr⟩, .log s _⟩)⟩

theorem tells_sendFirstConfirmationOrReserve (hk : ∀ d, k.knowsSeat d = truthy seatId) :
    Tells k i (sendFirstConfirmationOrReserve cfg ctx i seatId actorId k.locale) s := by
  unfold sendFirstConfirmationOrReserve
  split
  · rename_i hs
    exact tells_sendFirstConfirmation fun d => (hk d).trans hs
  · rename_i hs
    exact tells_requestSeatReservation fun r _ => (hk _).trans (by simpa using hs)

theorem tells_resendConfirmation
    (hk : ∀ d, k.knowsSeat d = d.pendingContactPayload.any fun p => truthy p.seatId) :
    Tells k i (resendConfirmation cfg ctx i actorId k.locale) s := by
  unfold resendConfirmation
  simp only [liftM_eq]
  refine tells_findInvitation ?_
  cases hr : s.row i with
  | none => exact tells_ret _
  | some r =>
    refine .ite (tells_ret _) (.ite (tells_ret _) (quiet_clock.seq fun now t ht => ?_))
    refine .ite (tells_ret _) ?_
    cases hp : r.pendingContactPayload with
    | none => exact tells_ret _
    | some stored =>
      refine quiet_inResendCooldown.seq fun cooling u hu => .ite (tells_ret _) ?_
      refine quiet_setResendCooldown.seq fun _ v hv => ?_
      obtain ⟨r', hr', hd⟩ := drafted ((ht.trans _ _ _ hu).trans _ _ _ hv).row hr
      have hpayload : r'.pendingContactPayload = some stored :=
        (congrArg (·.pendingContactPayload) hd).trans hp
      have hknows : k.knowsSeat r'.draft = truthy stored.seatId := by
        simp [hk, Invitation.draft, hpayload]
      have hrest : ∀ x : Unit, Quiet i (do
          recordResentAnalytics ctx i
          perform (note (.resent i))
          pure ResendConfirmationResult.resent) := fun _ =>
        quiet_recordResentAnalytics.bind fun _ =>
          (quiet_note (x := .resent i) trivial).bind fun _ => quiet_ret _
      rw [overrideLocale_seatId]
      refine Prog.Guarantees.ite (fun ht => ?_) fun hf => ?_
      · exact tells_dispatch hr' hd (hknows.trans ht) (.inl hpayload) hrest
      · refine Tells.seq (tells_requestSeatReservation fun x hx => ?_) fun _ => hrest ()
        obtain rfl : r' = x := Option.some_inj.1 (hr'.symm.trans hx)
        exact hknows.trans (by simpa using hf)

theorem tells_confirmApproval {input : ApproveInvitationDTO} {settings : Option EventSettings}
    (hi : input.id = i) (hk : ∀ d, k.knowsSeat d = truthy input.seatId)
    (hticket : k.ticketSeat = some input.seatId) (hlocale : input.locale = k.locale) :
    Tells k i (AdminWrite.confirmApproval cfg ctx input r settings) s := by
  have hsend : ∀ t, Tells k i (do
      let _ ← sendFirstConfirmationOrReserve cfg ctx input.id input.seatId (some input.actorId)
        input.locale
      pure () : Program Unit) t := fun t => by
    rw [hi, hlocale]
    exact (tells_sendFirstConfirmationOrReserve hk).seq fun _ => quiet_ret _
  unfold AdminWrite.confirmApproval
  simp only [liftM_eq]
  refine .ite (tells_ret _) (.ite (tells_ret _) (quiet_clock.seq fun now t _ => ?_))
  split
  · refine .ite (guarantees_perform fun _ hu => Block.post_call.2 ?_) (hsend t)
    subst hu
    exact ⟨⟨trivial, says_of_idles (.of_eq rfl)⟩, trivial, (Idles.of_eq rfl).says_log
      (show Accounts k i t _ (.scheduled (.generateTicket ..) _) from
        ⟨hi, hticket, hlocale, .log t _⟩)⟩
  · exact hsend t

theorem idles_perform {b : Query α} (hb : b.Moves Idles) : (perform b).Drifts Eq Idles :=
  drifts_perform Idles.trans (by rintro s _ rfl; exact .of_eq rfl) hb

theorem idles_writeRejection (input : ApproveInvitationDTO) :
    (AdminWrite.writeRejection input).Moves Idles := by
  have hrefl : ∀ w, Idles w w := fun w => .of_eq rfl
  refine Prog.Moves.bind Idles.trans (Block.moves_observe hrefl) fun now => ?_
  refine Prog.Moves.bind Idles.trans (Block.moves_call hrefl fun w => ?_) fun updated => ?_
  · split <;> exact .of_eq rfl
  · exact Prog.Moves.bind Idles.trans (Block.moves_record fun _ => .log trivial) fun _ =>
      Prog.moves_ret hrefl _

theorem tells_afterWrite {input : ApproveInvitationDTO} {updated : Invitation}
    (hi : input.id = i) (hk : ∀ d, k.knowsSeat d = truthy input.seatId)
    (hticket : k.ticketSeat = some input.seatId) (hlocale : input.locale = k.locale) :
    Tells k i (AdminWrite.afterWrite cfg ctx input updated) s := by
  unfold AdminWrite.afterWrite
  simp only [liftM_eq]
  refine quiet_findSettings.seq fun settings t _ => quiet_clock.seq fun now t _ => ?_
  refine quiet_publishMilestone.seq fun _ t _ => .ite ?_ (tells_ret _)
  exact (tells_confirmApproval hi hk hticket hlocale).seq fun _ => quiet_ret _

theorem tells_approve {input : ApproveInvitationDTO}
    (hi : input.id = i) (hk : ∀ d, k.knowsSeat d = truthy input.seatId)
    (hticket : k.ticketSeat = some input.seatId) (hlocale : input.locale = k.locale) :
    Tells k i (AdminWrite.approve cfg ctx input) s := by
  cases ha : input.approve with
  | true =>
    have hgrant : ∀ r, Quiet i (AdminWrite.grantOnApproval input r) := fun r => by
      unfold AdminWrite.grantOnApproval
      split
      · exact quiet_grantGuestAccess
      · exact quiet_ret _
    rw [AdminWrite.approve_eq ha]
    refine quiet_checkApproval.seq fun r t _ => (hgrant r).seq fun _ u _ => ?_
    exact quiet_writeApproval.seq fun updated v _ => tells_afterWrite hi hk hticket hlocale
  | false =>
    have hdrop : ∀ r, (AdminWrite.dropOnRejection r).Drifts Eq Idles := fun r => by
      unfold AdminWrite.dropOnRejection
      split
      · exact idles_perform (Block.moves_call (fun _ => .of_eq rfl) fun _ => .of_eq rfl)
      · exact fun s => .of_eq rfl
    rw [AdminWrite.approve_eq_of_reject ha]
    refine quiet_checkApproval.seq fun r t _ => ?_
    exact ((hdrop r).bind Idles.trans (fun _ =>
      idles_perform (idles_writeRejection input)) t).weaken
      fun _ _ h => says_of_idles h

theorem tells_generateTicket (hk : ∀ d, k.knowsSeat d = truthy seatId) {actorId : UserId} :
    Tells k i (generateTicket cfg ctx i seatId actorId k.locale) s := by
  have hlocked : ∀ t, Tells k i (generateTicketLocked cfg ctx i seatId actorId k.locale) t := by
    intro t
    unfold generateTicketLocked
    simp only [liftM_eq]
    refine quiet_findInvitation.seq fun o u _ => ?_
    cases o with
    | none => exact tells_ret _
    | some r =>
      refine .ite (tells_ret _) (.ite (tells_ret _) (.ite (tells_ret _) (.ite (tells_ret _) ?_)))
      exact (tells_sendFirstConfirmationOrReserve hk).seq fun _ => quiet_ret _
  unfold generateTicket
  simp only [liftM_eq]
  refine quiet_acquireLock.seq fun o t _ => ?_
  cases o with
  | none => exact tells_ret _
  | some token =>
    refine Prog.Guarantees.ensuring <| (hlocked t).weaken fun r u hs => ?_
    refine Prog.Guarantees.weaken (quiet_releaseLock (i := i) u) fun r' v hq => ?_
    cases r' <;> exact hs.before hq

theorem tells_handleReserved {e : EventId} {seatId : SeatId} :
    Tells .reserved i (handleReserved cfg ctx ⟨e, i, seatId, actorId⟩) s :=
  (tells_sendFirstConfirmation fun _ => rfl).seq fun _ => quiet_ret _

theorem tells_program (q : ConfirmationRequest) (l : Locale) :
    Tells (.of q l) q.invitationId (q.program cfg ctx l) s := by
  cases q with
  | approve input =>
    have happrove : Tells (.of (.approve input) l) input.id
        (AdminWrite.approve cfg ctx { input with locale := some l }) s :=
      tells_approve rfl (fun _ => rfl) rfl rfl
    exact happrove.seq fun _ => quiet_ret _
  | ticket i seatId actorId => exact tells_generateTicket fun _ => rfl
  | resend i actorId =>
    have hresend : Tells (.of (.resend i actorId) l) i
        (resendConfirmation cfg ctx i actorId (some l)) s := tells_resendConfirmation fun _ => rfl
    exact hresend.seq fun _ => quiet_ret _

theorem Tells.run {p : Program α} (h : Tells k i p s) (c : Nat → Nat → Bool) :
    Says k i s (p.run c s).2 := by
  have hexec : Prog.Exec Eq p s (p.run c s).1 (p.run c s).2 := Prog.exec_run (fun _ => rfl) p c s
  exact hexec.ends h fun _ _ h => h

end Programs
end Tells

theorem Says.of_adds {k : Route} {i : Nat} {s v : World} {x : Effect} (h : Says k i s v)
    (hx : s.Adds v x) : Accounts k i s v x := by
  obtain ⟨es, hes, hall⟩ := h
  obtain ⟨fs, hfs, hmem⟩ := hx
  obtain rfl : es = fs := List.append_cancel_right (hes.symm.trans hfs)
  exact hall x hmem

variable {cfg : Config} {l : Locale} {q : ConfirmationRequest} {w s v : World}

theorem spec_of_leads (h : Leads cfg l q w s v) : Preserves q.invitationId w s ∧
    (Says (.of q l) q.invitationId s v ∨
      (∃ r, w.row q.invitationId = some r ∧ q.knowsSeat r.draft = false) ∧
        Says .reserved q.invitationId s v) := by
  induction h with
  | own ctx c => exact ⟨.refl w, .inl ((tells_program q l).run c)⟩
  | @ticket s t u i e seatId actorId locale due ctx c _ hx henv ih =>
    obtain ⟨hp, hs | ⟨-, hs⟩⟩ := ih
    · obtain ⟨rfl, hseat, rfl, hq⟩ := hs.of_adds hx
      refine ⟨(hp.trans hq).trans (.of_environments henv), .inl ?_⟩
      refine (tells_generateTicket (k := .of q l) fun d => ?_).run c
      cases q with
      | approve input =>
        cases hseat
        rfl
      | _ => cases hseat
    · obtain ⟨-, hseat, -, -⟩ := hs.of_adds hx
      cases hseat
  | @reserved s t u payload actorId tenantId ctx c seatId actorId' _ hx henv ih =>
    obtain ⟨hp, hs | ⟨-, hs⟩⟩ := ih
    · obtain ⟨hi, ⟨r, hr, hk⟩, hq⟩ := hs.of_adds hx
      obtain ⟨r', hr', hd⟩ := hp.row_some hr
      refine ⟨(hp.trans hq).trans (.of_environments henv), .inr ⟨⟨r', hr', hd ▸ hk⟩, ?_⟩⟩
      rw [hi]
      exact tells_handleReserved.run c
    · obtain ⟨-, ⟨r, -, hk⟩, -⟩ := hs.of_adds hx
      cases hk

def Bears (l : Locale) (token : Nat) (v : World) : Prop :=
  ∃ payload, v.pendingContact token = some payload ∧ payload.locale = l

/-- A confirmation that a request for the locale `l` leads to says what the invitation and its
contact said when the request came, by either route; the cached contact bears the locale exactly
when the seat was known, or when the contact bore it before. -/
theorem carries_locale_iff (hl : l ∈ supportedLocales) (h : Leads cfg l q w s v)
    {j token endsAt : Nat} {e : EventId} {eventName operation : String} {seatId : Option SeatId}
    {actorId : Option UserId} {tenantId : TenantId}
    (hx : s.Adds v (.produced
      (.confirmGuest j e token eventName seatId endsAt operation) actorId tenantId)) :
    ∃ r stored, w.row q.invitationId = some r ∧ StoredContact r stored w ∧
      .confirmGuest j e token eventName seatId endsAt operation =
        confirmationOf r token v.now seatId operation ∧
      (Bears l token v ↔ q.knowsSeat r.draft = true ∨ stored.locale = l) := by
  obtain ⟨hp, hs | ⟨⟨r₀, hr₀, hk₀⟩, hs⟩⟩ := spec_of_leads h
  · obtain ⟨r, stored, hr, hk, hstored, hm, hc⟩ := hs.of_adds hx
    obtain ⟨r', hr', hd⟩ := hp.row_some hr
    refine ⟨r', stored, hr', hp.stored hd hstored, confirmationOf_congr hd ▸ hm, ?_⟩
    have hlocale : (overrideLocale stored (some l)).locale = l := by simp [overrideLocale, hl]
    exact ⟨fun _ => .inl (hd ▸ hk), fun _ => ⟨_, hc, hlocale⟩⟩
  · obtain ⟨r, stored, hr, -, hstored, hm, hc⟩ := hs.of_adds hx
    obtain ⟨r', hr', hd⟩ := hp.row_some hr
    obtain rfl : r₀ = r' := Option.some_inj.1 (hr₀.symm.trans hr')
    refine ⟨r₀, stored, hr', hp.stored hd hstored, confirmationOf_congr hd ▸ hm, ?_⟩
    have hc : v.pendingContact token = some stored := hc
    simp [Bears, hc, hk₀]

def acceptedWorld : World := (trace plainConfig acceptedRun .empty).2

def approveInEnglish (seatId : Option SeatId) : ConfirmationRequest :=
  .approve { id := 0, approve := true, actorId := 5, seatId, activeEventId := some 7 }

def approvedWorld (seatId : Option SeatId) : World :=
  (((approveInEnglish seatId).program plainConfig {} "en-US").run (fun _ _ => false)
    acceptedWorld).2

theorem carries_locale_iff_seated : Bears "en-US" 1 (approvedWorld (some "S")) := by
  have hx : acceptedWorld.Adds (approvedWorld (some "S")) (.produced
      (.confirmGuest 0 7 1 "" (some "S") 0 "Send confirm guest notification") (some 5) 0) :=
    ⟨(approvedWorld (some "S")).journal.take 4, by decide, by decide⟩
  obtain ⟨r, stored, -, -, -, hiff⟩ := carries_locale_iff (by decide)
    (.own {} fun _ _ => false : Leads plainConfig "en-US" (approveInEnglish (some "S"))
      acceptedWorld acceptedWorld (approvedWorld (some "S"))) hx
  exact hiff.2 (.inl rfl)

def seatedByService : World :=
  ((handleReserved plainConfig {} ⟨7, 0, "S", none⟩).run (fun _ _ => false)
    (approvedWorld none)).2

/-- The seat is not known yet: the guest is written to in German. -/
theorem not_carries_locale : ¬ ∀ l q w s v, l ∈ supportedLocales → Reachable plainConfig w →
    Leads plainConfig l q w s v → ∀ j e token eventName seatId endsAt operation actorId tenantId,
      s.Adds v (.produced
        (.confirmGuest j e token eventName seatId endsAt operation) actorId tenantId) →
      Bears l token v := by
  intro hall
  have hreserve : acceptedWorld.Adds (approvedWorld none)
      (.produced (.seatReserve ⟨7, 0, some 5⟩) (some 5) 0) :=
    ⟨(approvedWorld none).journal.take 3, by decide, by decide⟩
  have hleads : Leads plainConfig "en-US" (approveInEnglish none) acceptedWorld
      (approvedWorld none) seatedByService :=
    .reserved {} (fun _ _ => false) "S" none (.own {} fun _ _ => false) hreserve .refl
  have hx : (approvedWorld none).Adds seatedByService (.produced
      (.confirmGuest 0 7 1 "" (some "S") 0 "Send confirm guest notification") none 0) :=
    ⟨seatedByService.journal.take 2, by decide, by decide⟩
  obtain ⟨payload, hp, hl⟩ := hall "en-US" _ _ _ _ (by decide)
    ⟨_, serial_trace acceptedRun .empty (by decide)⟩ hleads _ _ _ _ _ _ _ _ _ hx
  have hgerman : (seatedByService.pendingContact 1).all (·.locale ≠ "en-US") = true := by decide
  rw [hp] at hgerman
  simp [hl] at hgerman

end ConfirmationLocale
end InvitationService

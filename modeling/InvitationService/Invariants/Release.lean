import InvitationService.Invariants.Contact

open Relation (ReflTransGen)

namespace InvitationService

open Resumption Query

variable {cfg : Config} {ctx : Context} {c : Call} {a s t u v w : World} {i T : Nat} {e : EventId}
  {x : Effect}

def Effect.Hastens (i T : Nat) : Effect → Prop
  | .scheduled (.generateTicket j ..) due => j = i ∧ due < T
  | _ => False

theorem Effect.Hastens.loud (h : x.Hastens i T) : ¬ x.Silent := by
  cases x with
  | scheduled j _ => cases j <;> first | exact id | exact h.elim
  | _ => exact h.elim

/-- The tickets of `i` and its event are released at `T`, and no ticket job of `i` is due
before. -/
structure ReleaseInv (i : Nat) (e : EventId) (T : Nat) (w : World) : Prop where
  contact : ContactInv w
  event : ∀ r, w.row i = some r → r.eventId = e
  lt_next : i < w.db.invitations.next
  settings : (w.db.settings e).bind EventSettings.releaseAt = some T
  due : ∀ x ∈ w.journal, ¬ x.Hastens i T

def Late (i T : Nat) (c : Call) (a : World) : Prop :=
  ∀ e seatId actorId locale, c = .job (.generateTicket i e seatId actorId locale) → T ≤ a.now

section

variable {R : World → World → Prop} (hR : ∀ s t, R s t → ReleaseInv i e T s ∧ Onward s t)

include hR

theorem Released.le {due : Nat} (h : Released R c i due w) (hlate : Late i T c a)
    (ha : Onward a w) : T ≤ due := by
  rcases h with ⟨hle, e', seatId, actorId, locale, hc⟩ | ⟨x, settings, now, hx, hset, hnow, hle⟩
  · exact (hlate e' seatId actorId locale hc).trans (ha.now.trans hle)
  · obtain ⟨y, hy, hyw⟩ := hx
    obtain ⟨z, hz, hzw⟩ := hset
    obtain ⟨n, rfl, hnw⟩ := hnow
    have hev : x.eventId = e := (hR y w hyw).1.event x hy
    have hT := hle T (by rw [← hz, hev]; exact (hR z w hzw).1.settings)
    have hmono := (hR n w hnw).2.now
    omega

theorem Utters.not_hastens (h : Utters R c w x) (hlate : Late i T c a) (ha : Onward a w) :
    ¬ x.Hastens i T := by
  intro hx
  cases h with
  | silent hs => exact absurd hs hx.loud
  | @ticket j _ _ _ _ due _ hrel =>
    obtain ⟨rfl, hlt⟩ : j = i ∧ due < T := hx
    exact absurd (hrel.le hR hlate ha) (Nat.not_le.2 hlt)
  | confirm _ _ _ _ _ _ => exact hx.elim
  | approved => exact hx.elim
  | resent _ => exact hx.elim
  | reminded _ => exact hx.elim

/-- A confirmation of `i` goes out from `T` on, unless the Seat service has just reserved a seat:
the stored contact never names one. -/
theorem Utters.confirms_late (h : Utters R c w x) (hx : x.Confirms i) (hlate : Late i T c a)
    (ha : Onward a w) : T ≤ w.now ∨ ∃ p, c = .seatReserved p ∧ p.invitationId = i := by
  obtain ⟨r, payload, _, _, seatId, _, _, _, _, -, hr, -, hp, -, hseat, hrel⟩ := h.of_confirms hx
  have hown : OwnContact i r := by
    obtain ⟨y, hy, hyw⟩ := hr
    exact (hR y w hyw).1.contact.own i r hy
  have hnone : payload.seatId = none := (hp.fresh hown).seatId
  have hfree : ¬ (payload.seatId = seatId ∧ truthy seatId = true) := by
    rintro ⟨hs, ht⟩
    rw [← hs, hnone] at ht
    cases ht
  rcases hrel with ⟨p, rfl⟩ | hs | hrel
  · exact .inr ⟨p, rfl, (hseat.resolve_right hfree).1.1⟩
  · exact absurd hs hfree
  · exact .inl (hrel.le hR hlate ha)

end

theorem ReleaseInv.action (hc : ¬ c.Projects) (hlate : Late i T c a) (ha : Onward a w)
    (hA : Action (System.Rely (ReleaseInv i e T) Onward a) cfg c a w v)
    (hw : ReleaseInv i e T w) : ReleaseInv i e T v where
  contact := hw.contact.action (fun _ h => h.contact) hA
  event r hr := by
    obtain ⟨y, hy, he⟩ := hA.keepsEvent i r hr hw.lt_next
    exact he.trans (hw.event y hy)
  lt_next := Nat.lt_of_lt_of_le hw.lt_next hA.next_le
  settings := by
    rw [hA.settings_eq hc]
    exact hw.settings
  due x hx := by
    obtain ⟨l, hl, hu⟩ := hA.journal
    rw [hl, List.mem_append] at hx
    rcases hx with hx | hx
    · exact (hu x hx).not_hastens (fun _ _ h => ⟨h.1, h.2.2.2⟩) hlate ha
    · exact hw.due x hx

theorem ReleaseInv.environment (h : World.Environment w v) (hw : ReleaseInv i e T w) :
    ReleaseInv i e T v where
  contact := hw.contact.environment h
  event r hr := hw.event r (by rwa [World.row, ← environment_db h])
  lt_next := Nat.lt_of_lt_of_le hw.lt_next (Onward.of_environment h).next
  settings := by
    rw [environment_db h]
    exact hw.settings
  due x hx := hw.due x (environment_journal h ▸ hx)

theorem ReleaseInv.called (hw : ReleaseInv i e T w) : ReleaseInv i e T (w.log (.called c)) where
  contact := hw.contact.called
  event := hw.event
  lt_next := hw.lt_next
  settings := hw.settings
  due x hx := by
    rcases List.mem_cons.1 hx with rfl | hx
    · exact id
    · exact hw.due x hx

theorem ReleaseInv.late {q : Request} (hw : ReleaseInv i e T w) (hen : Enabled q w) :
    Late i T q.call (w.log (.called q.call)) := by
  intro e' seatId actorId locale hc
  unfold Enabled at hen
  rw [hc] at hen
  obtain ⟨due, hle, hx⟩ := hen
  exact (Nat.not_lt.1 fun hlt => hw.due _ hx ⟨rfl, hlt⟩).trans hle

theorem ReleaseInv.rely {a : World} (h : ReleaseInv i e T s ∧ Onward a s)
    (hst : ReflTransGen World.Environment s t) :
    System.Rely (ReleaseInv i e T) Onward a s t ∧ (ReleaseInv i e T t ∧ Onward a t) := by
  have hon : ReleaseInv i e T t ∧ Onward s t := by
    induction hst with
    | refl => exact ⟨h.1, .refl s⟩
    | tail _ he ih => exact ⟨ih.1.environment he, ih.2.trans (.of_environment he)⟩
  exact ⟨⟨h.1, hon.1, h.2, hon.2⟩, hon.1, h.2.trans hon.2⟩

section

variable {q : Request} (hw : ReleaseInv i e T w) (hen : Enabled q w) (hc : ¬ q.call.Projects)

include hw hen hc

theorem ReleaseInv.upheld : Upheld cfg (ReleaseInv i e T) q.call (w.log (.called q.call)) :=
  fun _ _ hs ha hA => hs.action hc (hw.late hen) ha hA

theorem ReleaseInv.steady
    (ht : ReleaseInv i e T t ∧ Onward (w.log (.called q.call)) t)
    (hA : Action (System.Rely (ReleaseInv i e T) Onward (w.log (.called q.call))) cfg q.call
      (w.log (.called q.call)) t u) :
    ReleaseInv i e T u ∧ Onward (w.log (.called q.call)) u :=
  ⟨hw.upheld hen hc _ _ ht.1 ht.2 hA, ht.2.trans (.of_action hA)⟩

theorem ReleaseInv.exec {r : Except Exception Unit}
    (hx : Prog.Exec (ReflTransGen World.Environment) (execute cfg q) (w.log (.called q.call)) r v) :
    ReleaseInv i e T v :=
  (hx.sound_rely (I := fun t => ReleaseInv i e T t ∧ Onward (w.log (.called q.call)) t)
    (execute_conforms (hw.upheld hen hc).stable) ⟨hw.called, .refl _⟩ (fun _ _ => ReleaseInv.rely)
    fun _ _ => hw.steady hen hc).1.1

theorem ReleaseInv.makes
    (hx : Prog.Makes (ReflTransGen World.Environment) (execute cfg q) (w.log (.called q.call)) t u)
    (hconf : ConfirmsBetween i t u) : w.now ≤ t.now ∧
      (T ≤ t.now ∨ ∃ p, q.call = .seatReserved p ∧ p.invitationId = i) := by
  obtain ⟨⟨-, ha⟩, hA⟩ := hx.sound_rely
    (I := fun t => ReleaseInv i e T t ∧ Onward (w.log (.called q.call)) t)
    (execute_conforms (hw.upheld hen hc).stable) ⟨hw.called, .refl _⟩ (fun _ _ => ReleaseInv.rely)
    fun _ _ => hw.steady hen hc
  obtain ⟨l, hl, x, hxl, hxi⟩ := hconf
  obtain ⟨m, hm, hu⟩ := hA.journal
  obtain rfl : l = m := List.append_cancel_right (hl.symm.trans hm)
  exact ⟨ha.now, (hu x hxl).confirms_late (fun _ _ h => ⟨h.1, h.2.2.2⟩) hxi (hw.late hen) ha⟩

end

def Ready (i : Nat) (w : World) : Prop :=
  ∃ r, w.row i = some r ∧ r.guestProfileId = none ∧
    GuestConfirmation.actionable r.status = true ∧ r.pendingContactId ≠ none

theorem handleReserved_idle {payload : SeatReservedDTO} (h : ¬ Ready payload.invitationId s) :
    (handleReserved cfg ctx payload).Within (ReflTransGen World.Environment)
      (fun t u => u = t) (fun _ _ => True) s := by
  unfold handleReserved GuestConfirmation.sendFirstConfirmation
  simp only [liftM_eq]
  refine Prog.Within.bind <| Prog.Within.bind <| within_perform_of_moves looks_findInvitation
    (fun _ _ h => h) fun t hst => ends_findInvitation.2 fun _ => ?_
  cases hr : t.row payload.invitationId with
  | none => trivial
  | some r =>
    dsimp only
    split
    · trivial
    · split
      · trivial
      · split
        · trivial
        · rename_i hg hs hp
          refine absurd ⟨r, ?_, by simpa using hg, by simpa using hs, by simpa using hp⟩ h
          rwa [World.row, ← environments_db hst]

theorem not_confirmsBetween_of_idle {q : Request} {p : SeatReservedDTO}
    (hq : q.call = .seatReserved p)
    (h : ¬ Ready p.invitationId w)
    (hx : Prog.Makes (ReflTransGen World.Environment) (execute cfg q)
      (w.log (.called q.call)) t u) :
    ¬ ConfirmsBetween i t u := by
  obtain ⟨c, ctx⟩ := q
  obtain rfl : c = .seatReserved p := hq
  have hidle : (handleReserved cfg ctx p).Within (ReflTransGen World.Environment)
      (fun t u => u = t) (fun _ _ => True) (w.log (.called (.seatReserved p))) :=
        handleReserved_idle h
  obtain ⟨-, rfl⟩ := hx.sound (I := fun _ => True) hidle trivial (fun _ _ _ _ => trivial)
    fun _ _ _ _ => trivial
  rintro ⟨l, hl, x, hxl, -⟩
  obtain rfl : l = [] := List.append_cancel_right (hl.symm.trans (List.nil_append _).symm)
  exact List.not_mem_nil hxl

/-- An answer of the Seat service for `i` comes from `T` on, or finds `i` not ready. -/
def InTime (i T : Nat) (c : Call) (w : World) : Prop :=
  ∀ p, c = .seatReserved p → p.invitationId = i → T ≤ w.now ∨ ¬ Ready i w

def constant (cfg : Config) : System (Nat → Bool) World Exception Request :=
  { service cfg with enabled := fun q w => Enabled q w ∧ ¬ q.call.Projects }

/-- The same with a Seat service that answers for `i` in time. -/
def punctual (cfg : Config) (i T : Nat) : System (Nat → Bool) World Exception Request :=
  { constant cfg with enabled := fun q w => (constant cfg).enabled q w ∧ InTime i T q.call w }

/-- The invitation `i`, whose event releases its tickets at `T`, has no job that is due before. -/
structure Awaits (i T : Nat) (w : World) : Prop where
  settings : ∃ r settings, w.row i = some r ∧ w.db.settings r.eventId = some settings ∧
    settings.scheduleTicketRelease = true ∧ settings.ticketReleaseAt = some T
  due : ∀ x ∈ w.journal, ¬ x.Hastens i T

theorem Awaits.releaseInv (h : Awaits i T w) (hw : Reachable cfg w) : ∃ e, ReleaseInv i e T w := by
  obtain ⟨r, settings, hr, hs, hsched, hrel⟩ := h.settings
  obtain ⟨l, hl⟩ := hw
  obtain ⟨ts, hts⟩ := hl.interleaved
  refine ⟨r.eventId, contactInv_of_interleaved hts, fun x hx => ?_, w.db.invitations.id_lt hr, ?_,
    h.due⟩
  · rw [Option.some.inj (hr.symm.trans hx)]
  · rw [hs, Option.bind_some, EventSettings.releaseAt, if_pos hsched, hrel]

/-- As long as the Seat service answers in time, no confirmation of `i` goes out before `T`. -/
theorem confirmation_awaits_release (hs : Reachable cfg s) (hi : Awaits i T s)
    (hstep : (punctual cfg i T).SerialStep s t u) (hconf : ConfirmsBetween i t u) : T ≤ t.now := by
  obtain ⟨e, hinv⟩ := hi.releaseInv hs
  obtain ⟨h, w, q, hrun, ⟨⟨hen, hc⟩, htime⟩, hmakes⟩ := hstep
  have hw : ReleaseInv i e T w := by
    refine System.Serial.invariant (P := fun _ => True) hrun (fun _ _ => trivial) hinv
      (fun _ _ hi he => hi.environment he) fun q w r v hi hen _ hx => ?_
    exact hi.exec hen.1.1 hen.1.2 hx
  obtain ⟨hnow, hle | ⟨p, hp, hpi⟩⟩ := hw.makes hen hc hmakes hconf
  · exact hle
  · rcases htime p hp hpi with hle | hready
    · exact hle.trans hnow
    · subst hpi
      exact absurd hconf (not_confirmsBetween_of_idle hp hready hmakes)

def heldRun : List Request :=
  ⟨.eventCreated {
      eventId := 7, scheduleTicketRelease := some (some true)
      ticketReleaseAt := some (some 5) } (some 1), {}⟩ ::
    publicResendRun

def heldWorld : World := (trace plainConfig heldRun .empty).2

theorem reachable_heldWorld : Reachable plainConfig heldWorld :=
  ⟨_, serial_trace heldRun .empty (by decide)⟩

theorem awaits_heldWorld : Awaits 0 5 heldWorld where
  settings := by
    have hrow : (heldWorld.row 0).any (fun r => (heldWorld.db.settings r.eventId).any fun s =>
        s.scheduleTicketRelease && s.ticketReleaseAt = some 5) = true := by decide
    obtain ⟨r, hr, hok⟩ := (Option.any_eq_true _ _).1 hrow
    obtain ⟨settings, hs, hok⟩ := (Option.any_eq_true _ _).1 hok
    obtain ⟨hsched, hrel⟩ := Bool.and_eq_true_iff.1 hok
    exact ⟨r, settings, hr, hs, hsched, of_decide_eq_true hrel⟩
  due x hx := by
    have hall : heldWorld.journal.all (fun x => match x with
        | .scheduled (.generateTicket ..) _ => false
        | _ => true) = true := by decide
    have hok := List.all_eq_true.1 hall x hx
    cases x with
    | scheduled j due =>
      cases j with
      | generateTicket => cases hok
      | remind => exact id
    | _ => exact id

def heldTrail (n : Nat) : List (World × World) :=
  trail plainConfig seatedCall { heldWorld with now := n }

def heldStep (n : Nat) : World × World := ((heldTrail n)[3]?).getD (heldWorld, heldWorld)

theorem makes_heldStep {n : Nat} (h : 3 < (heldTrail n).length) :
    Prog.Makes (ReflTransGen World.Environment) (execute plainConfig seatedCall)
      (World.log { heldWorld with now := n } (.called seatedCall.call)) (heldStep n).1
        (heldStep n).2 := by
  have hmem : heldStep n ∈ heldTrail n := by
    rw [heldStep, List.getElem?_eq_getElem h]
    exact List.getElem_mem h
  exact Prog.makes_of_mem_trail (fun _ => .refl) hmem

theorem confirmation_awaits_release_held :
    (punctual plainConfig 0 5).SerialStep heldWorld (heldStep 5).1 (heldStep 5).2 ∧
    ConfirmsBetween 0 (heldStep 5).1 (heldStep 5).2 ∧ 5 ≤ (heldStep 5).1.now := by
  have hlate : (punctual plainConfig 0 5).Serial heldWorld [] { heldWorld with now := 5 } :=
    .env .start (.pass (by decide))
  have hstep : (punctual plainConfig 0 5).SerialStep heldWorld (heldStep 5).1 (heldStep 5).2 :=
    ⟨[], _, seatedCall, hlate, ⟨⟨trivial, id⟩, fun _ _ _ => .inl (Nat.le_refl _)⟩,
      makes_heldStep (by decide)⟩
  have hconf : ConfirmsBetween 0 (heldStep 5).1 (heldStep 5).2 :=
    ⟨[.produced (.confirmGuest 0 7 1 "" (some "S") 5 "Send confirm guest notification") none 0],
      by decide, _, List.mem_singleton_self _, rfl⟩
  exact ⟨hstep, hconf, confirmation_awaits_release reachable_heldWorld awaits_heldWorld hstep hconf⟩

/-- The seat is reserved at once, and the link goes out long before the release. -/
theorem not_confirmation_awaits_release : ¬ ∀ i T s t u, Reachable plainConfig s → Awaits i T s →
    (constant plainConfig).SerialStep s t u → ConfirmsBetween i t u → T ≤ t.now := by
  intro hall
  have hnow : (constant plainConfig).Serial heldWorld [] { heldWorld with now := 0 } :=
    .env .start (.pass (by decide))
  have hstep : (constant plainConfig).SerialStep heldWorld (heldStep 0).1 (heldStep 0).2 :=
    ⟨[], _, seatedCall, hnow, ⟨trivial, id⟩, makes_heldStep (by decide)⟩
  have hle := hall 0 5 heldWorld _ _ reachable_heldWorld awaits_heldWorld hstep
    ⟨[.produced (.confirmGuest 0 7 1 "" (some "S") 0 "Send confirm guest notification") none 0],
      by decide, _, List.mem_singleton_self _, rfl⟩
  exact absurd hle (by decide)

end InvitationService

import InvitationService.Lifecycle.Writes

open Relation (ReflTransGen)

namespace InvitationService

open Resumption

variable {cfg : Config} {c : Call} {a s t : World}

theorem stable_kept : Stable Kept cfg c a where
  trans := Kept.trans
  next_le h := h.next.ge
  absorb h _ hk := h.trans hk

theorem Kept.of_environments (h : ReflTransGen World.Environment s t) : Kept s t := by
  induction h with
  | refl => exact .refl _
  | tail _ he ih => exact ih.trans (.of_environment he)

/-- What a call does when no other call is under way: it acts on what it has read, changed
at most by its own confirmations. -/
theorem service_guarantees (q : Request) (s : World) :
    ((service cfg).exec q).Guarantees (ReflTransGen (service cfg).env)
      (Action Kept cfg q.call ((service cfg).arrive q s)) (fun _ _ => True)
      ((service cfg).arrive q s) :=
  (execute_conforms stable_kept).mono (fun _ _ => Kept.of_environments) (fun _ _ h => h)
    fun _ _ _ => trivial

theorem environment_db (h : World.Environment s t) : t.db = s.db := by
  cases h <;> rfl

theorem environments_db (h : ReflTransGen World.Environment s t) : t.db = s.db := by
  induction h with
  | refl => rfl
  | tail _ he ih => exact (environment_db he).trans ih

theorem environment_journal (h : World.Environment s t) : t.journal = s.journal := by
  cases h <;> rfl

theorem environments_journal (h : ReflTransGen World.Environment s t) : t.journal = s.journal := by
  induction h with
  | refl => rfl
  | tail _ he ih => exact (environment_journal he).trans ih

abbrev CallRecord := System.Record World Exception Request

/-- A state that calls executed one at a time, from an empty store, can lead to. -/
def Reachable (cfg : Config) (w : World) : Prop := ∃ h, (service cfg).Serial .empty h w

theorem Serial.invariant_of_actions {I : World → Prop} {s₀ s : World}
    {h : List CallRecord} (hs : (service cfg).Serial s₀ h s) (h₀ : I s₀) (henv : ∀ s t, I s →
      World.Environment s t → I t)
    (harrive : ∀ c s, I s → I (s.log (.called c)))
    (hact : ∀ c a s t, I s → Action Kept cfg c a s t → I t) : I s :=
  hs.stepwise (P := fun _ => True) (J := fun _ _ => I) (fun _ _ => trivial) h₀ henv
    service_guarantees (fun q s _ hi _ _ => harrive q.call s hi) (fun _ _ => henv)
    (fun q _ t u => hact q.call _ t u) fun _ _ _ hi => hi

theorem SerialStep.invariant_of_actions {I : World → Prop} {s₀ u : World}
    (hs : (service cfg).SerialStep s₀ t u) (h₀ : I s₀)
    (henv : ∀ s t, I s → World.Environment s t → I t) (harrive : ∀ c s, I s → I (s.log (.called c)))
    (hact : ∀ c a s t, I s → Action Kept cfg c a s t → I t) :
    I t ∧ ∃ c a, Action Kept cfg c a t u := by
  obtain ⟨h, s, q, hrun, -, hmakes⟩ := hs
  obtain ⟨hi, hA⟩ := hmakes.sound (service_guarantees q s)
    (harrive q.call s (Serial.invariant_of_actions hrun h₀ henv harrive hact))
    (System.env_star henv) (hact q.call _)
  exact ⟨hi, q.call, _, hA⟩

theorem Snapshot.core_eq {i : Nat} {r x : Invitation} {w : World} (h : Snapshot Kept i r w)
    (hx : w.row i = some x) : x.core = r.core := by
  obtain ⟨v, hv, hk⟩ := h
  obtain ⟨r', hr', hc⟩ := hk.row_some hv
  rw [hx] at hr'
  cases hr'
  exact hc

theorem Snapshot.arrival {i : Nat} {r x : Invitation} {w : World} (h : Snapshot Kept i r w)
    (ha : Kept a w) (hx : w.row i = some x) : ∃ y, a.row i = some y ∧ y.core = r.core := by
  have hrow := ha.row i
  rw [hx] at hrow
  obtain ⟨y, hy, hcore⟩ := Option.map_eq_some_iff.1 hrow.symm
  exact ⟨y, hy, hcore.trans (h.core_eq hx)⟩

theorem GuestWrite.planReply_core (r : Invitation) (input : RSVPInput) :
    GuestWrite.planReply r.core input = GuestWrite.planReply r input := rfl

section

variable {r x : Invitation} (h : x.core = r.core)

include h

theorem core_status : x.status = r.status := congrArg (·.status) h
theorem core_rsvpChoice : x.rsvpChoice = r.rsvpChoice := congrArg (·.rsvpChoice) h
theorem core_eventId : x.eventId = r.eventId := congrArg (·.eventId) h
theorem core_maxInvitees : x.maxInvitees = r.maxInvitees := congrArg (·.maxInvitees) h

end

theorem Action.rows {R : World → World → Prop} {Q : Nat → Invitation → Prop} {w v : World}
    (hA : Action R cfg c a w v) (hw : ∀ i r, w.row i = some r → Q i r)
    (hwrite : ∀ i o r, Write R cfg c a w i o (some r) → (∀ x, o = some x → Q i x) → Q i r)
    (happrove : ∀ i r x actorId now, Snapshot R i r w → r.rsvpChoice = some .yes →
      Seen R (Authorised c a i) w → .approved i actorId ∈ v.journal → w.row i = some x →
      Q i ((approvalUpdate actorId now).apply w.now x)) :
    ∀ i r, v.row i = some r → Q i r := by
  intro i r hr
  cases hA with
  | step _ hch _ _ _ _ =>
    have hall : ∀ o, Writes R cfg c a w i o → ∀ x, o = some x → Q i x := by
      intro o ho
      induction ho with
      | refl => exact hw i
      | @tail o o' _ hlast ih =>
        rintro x rfl
        exact hwrite i o x hlast ih
    exact hall _ (hch.writes i) r hr
  | project hp => exact hw i r (by rwa [World.row, hp.invitations] at hr)
  | @approve j r' actorId now hsnap hy _ hauth =>
    rw [World.log_row, World.setInvitations_row] at hr
    by_cases hj : i = j
    · subst hj
      rw [InvitationTable.patch_row_self] at hr
      obtain ⟨x, hx, rfl⟩ := Option.map_eq_some_iff.1 hr
      exact happrove i r' x actorId now hsnap hy hauth (by simp) hx
    · rw [InvitationTable.patch_row_of_ne hj] at hr
      exact hw i r hr
  | confirm _ _ _ _ _ _ _ => exact hw i r hr
  | resent _ => exact hw i r hr
  | reminded _ => exact hw i r hr
  | ticket _ _ => exact hw i r hr

theorem Action.now_eq {R : World → World → Prop} {w v : World} (hA : Action R cfg c a w v) :
    v.now = w.now := by
  cases hA with
  | step hs _ _ _ _ _ => exact hs.now
  | project hp => exact hp.side.now
  | _ => rfl

theorem Action.access_eq {R : World → World → Prop} {w v : World} (hA : Action R cfg c a w v)
    {e : EventId} {u : UserId} (hc : ¬ c.WritesAccess e u) : v.db.access e u = w.db.access e u := by
  cases hA with
  | step _ _ _ _ _ h => rw [h]
  | project hp => exact (hp.access e u).resolve_left hc
  | _ => rfl

theorem Action.settings_eq {R : World → World → Prop} {w v : World} (hA : Action R cfg c a w v)
    (hc : ¬ c.Projects) : v.db.settings = w.db.settings := by
  cases hA with
  | step _ _ _ h _ _ => exact h
  | project hp => exact absurd hp.projects hc
  | _ => rfl

theorem Action.roles_eq {R : World → World → Prop} {w v : World} (hA : Action R cfg c a w v)
    {e : EventId} {u : UserId} (hc : ¬ c.WritesRole e u) : v.db.roles e u = w.db.roles e u := by
  cases hA with
  | step _ _ _ _ h _ => rw [h]
  | project hp => exact (hp.roles e u).resolve_left hc
  | _ => rfl

section

variable {q : Request} {r : Except Exception Unit} {e : EventId} {u : UserId}
  (hex : Prog.Exec (ReflTransGen (service cfg).env) ((service cfg).exec q)
    ((service cfg).arrive q s) r t)

include hex

theorem exec_keeps {I : World → Prop} (hs : I ((service cfg).arrive q s))
    (henv : ∀ s t, I s → World.Environment s t → I t)
    (hact : ∀ s t a, I s → Action Kept cfg q.call a s t → I t) : I t :=
  (hex.sound (service_guarantees q s) hs (System.env_star henv) fun _ _ hi hA =>
    hact _ _ _ hi hA).1

theorem exec_now_le : s.now ≤ t.now :=
  exec_keeps (I := fun v => s.now ≤ v.now) hex (Nat.le_refl _)
    (fun _ _ hi he => hi.trans (Kept.of_environment he).now)
    fun _ _ _ hi hA => hi.trans hA.now_eq.ge

theorem exec_access_eq (hc : ¬ q.call.WritesAccess e u) : t.db.access e u = s.db.access e u :=
  exec_keeps (I := fun v => v.db.access e u = s.db.access e u) hex rfl
    (fun _ _ hi he => by rw [environment_db he, hi]) fun _ _ _ hi hA => (hA.access_eq hc).trans hi

theorem exec_roles_eq (hc : ¬ q.call.WritesRole e u) : t.db.roles e u = s.db.roles e u :=
  exec_keeps (I := fun v => v.db.roles e u = s.db.roles e u) hex rfl
    (fun _ _ hi he => by rw [environment_db he, hi]) fun _ _ _ hi hA => (hA.roles_eq hc).trans hi

end

/-- What a step may add to the journal. -/
inductive Utters (R : World → World → Prop) (c : Call) (w : World) : Effect → Prop
  | silent {x : Effect} : x.Silent → Utters R c w x
  | approved {i : Nat} {actorId : UserId} : Utters R c w (.approved i actorId)
  | confirm {i : Nat} {r : Invitation} {payload : PendingUser} {token : Nat}
      {eventName : String} {seatId : Option SeatId} {endsAt : Nat} {operation : String}
      {actorId : Option UserId} {tenantId : TenantId} :
      Snapshot R i r w → GuestConfirmation.actionable r.status = true →
      PayloadOf R r payload w → Minted R token payload w →
      (c.Gives i seatId ∧ ((∃ p, c = .seatReserved p) ∨ truthy seatId = true)) ∨
        (payload.seatId = seatId ∧ truthy seatId = true) →
      (∃ p, c = .seatReserved p) ∨ (payload.seatId = seatId ∧ truthy seatId = true) ∨
        Released R c i w.now w →
      Utters R c w (.produced
        (.confirmGuest i r.eventId token eventName seatId endsAt operation) actorId tenantId)
  | ticket {i : Nat} {e : EventId} {seatId : Option SeatId} {actorId : UserId}
      {locale : Option Locale} {due : Nat} :
      (truthy seatId = true → c.Gives i seatId) → Released R c i due w →
      Utters R c w (.scheduled (.generateTicket i e seatId actorId locale) due)
  | resent {i : Nat} : c.Resends → Utters R c w (.resent i)
  | reminded {i : Nat} {resent : Bool} : c.Resends → Utters R c w (.reminded i resent)

theorem Action.journal {R : World → World → Prop} {w v : World} (hA : Action R cfg c a w v) :
    ∃ l, v.journal = l ++ w.journal ∧ ∀ x ∈ l, Utters R c w x := by
  have hlog : ∀ x, v.journal = x :: w.journal → Utters R c w x →
      ∃ l, v.journal = l ++ w.journal ∧ ∀ x ∈ l, Utters R c w x := fun x hv hx =>
    ⟨[x], hv, by simpa using hx⟩
  cases hA with
  | step hs _ _ _ _ _ => exact hs.journal.imp fun l hl => ⟨hl.1, fun x hx => .silent (hl.2 x hx)⟩
  | project hp =>
    exact hp.side.journal.imp fun l hl => ⟨hl.1, fun x hx => .silent (hl.2 x hx)⟩
  | approve _ _ _ _ => exact hlog _ rfl .approved
  | confirm hr _ hs hp ht hseat hrel => exact hlog _ rfl (.confirm hr hs hp ht hseat hrel)
  | resent hc => exact hlog _ rfl (.resent hc)
  | reminded hc => exact hlog _ rfl (.reminded hc)
  | ticket hg hrel => exact hlog _ rfl (.ticket hg hrel)

def Effect.Confirms (i : Nat) : Effect → Prop
  | .produced (.confirmGuest j ..) _ _ => j = i
  | _ => False

def ConfirmsBetween (i : Nat) (w v : World) : Prop :=
  ∃ l, v.journal = l ++ w.journal ∧ ∃ x ∈ l, x.Confirms i

theorem Effect.Confirms.loud {i : Nat} {x : Effect} (h : x.Confirms i) : ¬ x.Silent := by
  cases x with
  | produced m _ _ => cases m <;> first | exact id | exact h.elim
  | _ => exact h.elim

theorem Utters.of_confirms {R : World → World → Prop} {w : World} {i : Nat} {x : Effect}
    (h : Utters R c w x) (hx : x.Confirms i) :
    ∃ r payload token eventName seatId endsAt operation actorId tenantId,
      x = .produced (.confirmGuest i r.eventId token eventName seatId endsAt operation) actorId
        tenantId ∧
      Snapshot R i r w ∧ GuestConfirmation.actionable r.status = true ∧
      PayloadOf R r payload w ∧ Minted R token payload w ∧
      ((c.Gives i seatId ∧ ((∃ p, c = .seatReserved p) ∨ truthy seatId = true)) ∨
        (payload.seatId = seatId ∧ truthy seatId = true)) ∧
      ((∃ p, c = .seatReserved p) ∨ (payload.seatId = seatId ∧ truthy seatId = true) ∨
        Released R c i w.now w) := by
  cases h with
  | silent hs => exact absurd hs hx.loud
  | @confirm j r payload token _ _ _ _ _ _ hr hs hp ht hseat hrel =>
    obtain rfl : j = i := hx
    exact ⟨r, payload, token, _, _, _, _, _, _, rfl, hr, hs, hp, ht, hseat, hrel⟩
  | approved => exact hx.elim
  | ticket _ _ => exact hx.elim
  | resent _ => exact hx.elim
  | reminded _ => exact hx.elim

theorem Action.confirms {R : World → World → Prop} {w v : World} {i : Nat}
    (hA : Action R cfg c a w v) (hv : ConfirmsBetween i w v) :
    ∃ r, Snapshot R i r w ∧ GuestConfirmation.actionable r.status = true := by
  obtain ⟨l, hl, x, hx, hxi⟩ := hv
  obtain ⟨m, hm, hu⟩ := hA.journal
  obtain rfl : l = m := List.append_cancel_right (hl.symm.trans hm)
  obtain ⟨r, _, _, _, _, _, _, _, _, -, hr, hs, -⟩ := (hu x hx).of_confirms hxi
  exact ⟨r, hr, hs⟩

/-! Concrete runs, in which no dependency fails. -/

def plainConfig : Config where
  defaultTenantId := 0
  guestReminderAfterMs := 1000
  guestReminderMaxResends := 2
  guestReminderPresets := []
  tempActorId _ n := n
  getPrimaryPhoneNumber xs := xs.head?.map (·.number)
  uniqueEventPermissions xs := xs
  getDefaultPermissionsForEventRole r := if r = some .admin then ["plus_ones.manage"] else []
  toLowerCase s := s
  toLocaleLowerCase s := s

def Call.isJob : Call → Bool
  | .job _ => true
  | _ => false

def trace (cfg : Config) : List Request → World →
    List CallRecord × World
  | [], w => ([], w)
  | q :: qs, w =>
    let r := ((service cfg).exec q).run (fun _ _ => false) ((service cfg).arrive q w)
    let t := trace cfg qs r.2
    (⟨w, q, r.1⟩ :: t.1, t.2)

theorem enabled_of_not_job {q : Request} (hq : q.call.isJob = false) :
    (service cfg).enabled q s := by
  obtain ⟨c, ctx⟩ := q
  cases c <;> trivial

/-- The service when no call of a dependency fails. -/
abbrev reliable (cfg : Config) : System Unit World Exception Request :=
  (service cfg).always fun _ => false

theorem reliable_trace (qs : List Request) (w : World)
    (h : qs.all (fun q => !q.call.isJob) = true) :
    (reliable cfg).Serial w (trace cfg qs w).1 (trace cfg qs w).2 := by
  induction qs generalizing w with
  | nil => exact .start
  | cons q qs ih =>
    simp only [List.all_cons, Bool.and_eq_true, Bool.not_eq_true'] at h
    have hen : (service cfg).enabled q w := enabled_of_not_job h.1
    have hrun := (System.Serial.start (S := reliable cfg)).run q hen fun _ => ()
    rw [show (reliable cfg).exec q = ((service cfg).exec q).always fun _ => false from rfl,
      Prog.run_always] at hrun
    exact hrun.trans (ih _ h.2)

theorem serial_trace_under (E : World → World → Prop) (qs : List Request) (w : World)
    (h : qs.all (fun q => !q.call.isJob) = true) :
    ({ service cfg with env := E } : System (Nat → Bool) World Exception Request).Serial w
      (trace cfg qs w).1 (trace cfg qs w).2 := by
  induction qs generalizing w with
  | nil => exact .start
  | cons q qs ih =>
    simp only [List.all_cons, Bool.and_eq_true, Bool.not_eq_true'] at h
    have hen : (service cfg).enabled q w := enabled_of_not_job h.1
    exact (System.Serial.run (S := { service cfg with env := E }) .start q hen
      fun _ _ => false).trans
      (ih _ h.2)

theorem serial_trace (qs : List Request) (w : World)
    (h : qs.all (fun q => !q.call.isJob) = true) :
    (service cfg).Serial w (trace cfg qs w).1 (trace cfg qs w).2 :=
  serial_trace_under World.Environment qs w h

theorem exec_trace {q : Request} {w : World}
    (hok : (trace cfg [q] w).1.all (fun x => x.outcome.isOk) = true) :
    Prog.Exec (ReflTransGen World.Environment) (execute cfg q) (w.log (.called q.call)) (.ok ())
      (trace cfg [q] w).2 := by
  have hrun := Prog.exec_run (R := ReflTransGen World.Environment) (fun _ => .refl)
    (execute cfg q) (fun _ _ => false) (w.log (.called q.call))
  have hone : ((execute cfg q).run (fun _ _ => false) (w.log (.called q.call))).1.isOk = true := by
    simp only [trace, List.all_cons, List.all_nil, Bool.and_true] at hok
    exact hok
  generalize hx : ((execute cfg q).run (fun _ _ => false) (w.log (.called q.call))).1 = o
    at hrun hone
  cases o with
  | ok _ => exact hrun
  | error _ => cases hone

theorem call_of_mem_trace {qs : List Request} {w : World}
    {x : CallRecord} (h : x ∈ (trace cfg qs w).1) : x.call ∈ qs := by
  induction qs generalizing w with
  | nil => cases h
  | cons q qs ih =>
    rcases List.mem_cons.1 h with rfl | h
    · exact List.mem_cons_self
    · exact List.mem_cons_of_mem _ (ih h)

def trail (cfg : Config) (q : Request) (w : World) : List (World × World) :=
  ((service cfg).exec q).trail (fun _ _ => false) ((service cfg).arrive q w)

theorem serialStep_trail {q : Request} {s₀ u : World}
    {h : List CallRecord} (hs : (service cfg).Serial s₀ h s)
    (hq : q.call.isJob = false) (hu : (t, u) ∈ trail cfg q s) :
    (service cfg).SerialStep s₀ t u :=
  ⟨h, s, q, hs, enabled_of_not_job hq, Prog.makes_of_mem_trail (fun _ => .refl) hu⟩

def publicResendRun : List Request :=
  [⟨.createInvitation { eventId := some 7, firstName := "A", lastName := "B" } 5,
      { tenantId := some 1 }⟩,
    ⟨.replyInvitation { invitationId := 0, choice := .yes, replyInput := some {
      firstName := "A", lastName := "B", email := some "a@b.de"
      phoneNumbers := [{ number := "1", type := .mobile, countryCode := "49" }] } } "de-DE",
      { tenantId := some 1 }⟩,
    ⟨.requestGuestConfirmation {
      eventId := 7, firstName := "A", lastName := "B", identifier := "a@b.de" } "de-DE",
      { tenantId := some 1 }⟩]

def seatedCall : Request := ⟨.seatReserved { eventId := 7, invitationId := 0, seatId := "S" }, {}⟩

end InvitationService

import InvitationService.Invariants.Contact

namespace InvitationService

open Resumption

variable {cfg : Config} {c : Call} {a v w : World} {i : Nat} {seat : Option SeatId}

/-- Staff named `seat` when approving `i`, or the Seat service reserved it for `i`. -/
def Provided (i : Nat) (seat : Option SeatId) (w : World) : Prop :=
  ∃ c, .called c ∈ w.journal ∧ c.isJob = false ∧ c.Gives i seat

def Effect.Tickets (i : Nat) (seat : Option SeatId) : Effect → Prop
  | .scheduled (.generateTicket j _ s _ _) _ => j = i ∧ s = seat
  | _ => False

theorem Effect.Tickets.loud {x : Effect} (h : x.Tickets i seat) : ¬ x.Silent := by
  cases x with
  | scheduled j _ => cases j <;> first | exact id | exact h.elim
  | _ => exact h.elim

def Effect.Seats (i : Nat) (seat : Option SeatId) : Effect → Prop
  | .produced (.confirmGuest j _ _ _ s _ _) _ _ => j = i ∧ s = seat
  | _ => False

theorem Effect.Seats.confirms {x : Effect} (h : x.Seats i seat) : x.Confirms i := by
  cases x with
  | produced m _ _ => cases m <;> first | exact h.1 | exact h.elim
  | _ => exact h.elim

/-- Where the seats of jobs and confirmations come from. -/
structure SeatInv (w : World) : Prop where
  ticket : ∀ i seat, ∀ x ∈ w.journal, x.Tickets i seat → truthy seat = true → Provided i seat w
  job : ∀ c i seat, .called c ∈ w.journal → c.isJob = true → c.Gives i seat →
    ∃ x ∈ w.journal, x.Tickets i seat
  confirm : ∀ i seat, ∀ x ∈ w.journal, x.Seats i seat → Provided i seat w ∧
    (truthy seat = true ∨ ∃ p, .called (.seatReserved p) ∈ w.journal ∧ seat = some p.seatId)

theorem Provided.onward (h : Provided i seat w) (hm : Onward w v) : Provided i seat v :=
  h.imp fun _ hc => ⟨hm.mem hc.1, hc.2⟩

theorem SeatInv.provided (hw : SeatInv w) (hc : .called c ∈ w.journal) (hg : c.Gives i seat)
    (hs : c.isJob = true → truthy seat = true) : Provided i seat w := by
  cases hj : c.isJob with
  | false => exact ⟨c, hc, hj, hg⟩
  | true =>
    obtain ⟨x, hx, ht⟩ := hw.job c i seat hc hj hg
    exact hw.ticket i seat x hx ht (hs hj)

section

variable {R : World → World → Prop} {x : Effect}

theorem Utters.ticket_gives (h : Utters R c w x) (hx : x.Tickets i seat)
    (hs : truthy seat = true) : c.Gives i seat := by
  cases h with
  | silent hsilent => exact absurd hsilent hx.loud
  | @ticket j _ s _ _ _ hg _ =>
    obtain ⟨rfl, rfl⟩ : j = i ∧ s = seat := hx
    exact hg hs
  | confirm _ _ _ _ _ _ => exact hx.elim
  | approved => exact hx.elim
  | resent _ => exact hx.elim
  | reminded _ => exact hx.elim

theorem Utters.not_called (h : Utters R c w x) (d : Call) : x ≠ .called d := by
  rintro rfl
  cases h with
  | silent hs => exact hs

theorem Utters.confirm_gives {I : World → Prop} (hI : ∀ w, I w → ContactInv w)
    (h : Utters (System.Rely I Onward a) c w x) (hx : x.Seats i seat) :
    c.Gives i seat ∧ ((∃ p, c = .seatReserved p) ∨ truthy seat = true) := by
  obtain ⟨r, payload, _, _, s, _, _, _, _, rfl, hr, -, hp, -, hseat, -⟩ :=
    h.of_confirms hx.confirms
  obtain ⟨-, rfl⟩ : i = i ∧ s = seat := hx
  rcases hseat with h | ⟨hs, ht⟩
  · exact h
  · rw [← hs, (hp.fresh (hr.ownContact hI)).seatId] at ht
    cases ht

end

theorem SeatInv.action {I : World → Prop} (hI : ∀ w, I w → ContactInv w)
    (hA : Action (System.Rely I Onward a) cfg c a w v) (hc : .called c ∈ w.journal)
    (hw : SeatInv w) : SeatInv v := by
  have hm := Onward.of_action hA
  obtain ⟨l, hl, hu⟩ := hA.journal
  have hmem : ∀ {x}, x ∈ v.journal → x ∈ w.journal ∨ Utters (System.Rely I Onward a) c w x := by
    intro x hx
    rw [hl, List.mem_append] at hx
    exact hx.symm.imp id (hu x)
  constructor
  · intro i seat x hx ht hs
    rcases hmem hx with hx | hx
    · exact (hw.ticket i seat x hx ht hs).onward hm
    · exact (hw.provided hc (hx.ticket_gives ht hs) fun _ => hs).onward hm
  · intro d i seat hd hj hg
    rcases hmem hd with hd | hd
    · exact (hw.job d i seat hd hj hg).imp fun _ hx => ⟨hm.mem hx.1, hx.2⟩
    · exact absurd rfl (hd.not_called d)
  · intro i seat x hx hs
    rcases hmem hx with hx | hx
    · obtain ⟨hp, h⟩ := hw.confirm i seat x hx hs
      exact ⟨hp.onward hm, h.imp id fun h => h.imp fun _ hp => ⟨hm.mem hp.1, hp.2⟩⟩
    · obtain ⟨hg, h⟩ := hx.confirm_gives hI hs
      rcases h with ⟨p, rfl⟩ | h
      · exact ⟨(hw.provided hc hg (fun h => by cases h)).onward hm,
          .inr ⟨p, hm.mem hc, hg.2.symm⟩⟩
      · exact ⟨(hw.provided hc hg fun _ => h).onward hm, .inl h⟩

theorem SeatInv.empty : SeatInv .empty :=
  ⟨fun _ _ _ h => (by cases h), fun _ _ _ h => (by cases h), fun _ _ _ h => (by cases h)⟩

theorem SeatInv.of_journal (hj : v.journal = w.journal) (hw : SeatInv w) : SeatInv v := by
  constructor <;> simp only [Provided, hj]
  · exact hw.ticket
  · exact hw.job
  · exact hw.confirm

theorem Enabled.tickets {q : Request} (hen : Enabled q w) (hj : q.call.isJob = true)
    (hg : q.call.Gives i seat) : ∃ x ∈ w.journal, x.Tickets i seat := by
  obtain ⟨c, ctx⟩ := q
  cases c with
  | job j =>
    cases j with
    | generateTicket j e s actorId locale =>
      obtain ⟨due, -, hx⟩ := hen
      exact ⟨_, hx, hg⟩
    | remind _ _ _ => exact hg.elim
  | _ => cases hj

theorem SeatInv.called {q : Request} (hen : Enabled q w) (hw : SeatInv w) :
    SeatInv (w.log (.called q.call)) := by
  have hm := Onward.log w (.called q.call)
  constructor
  · intro i seat x hx ht hs
    rcases List.mem_cons.1 hx with rfl | hx
    · exact ht.elim
    · exact (hw.ticket i seat x hx ht hs).onward hm
  · intro d i seat hd hj hg
    rcases List.mem_cons.1 hd with hd | hd
    · cases hd
      obtain ⟨x, hx, ht⟩ := hen.tickets hj hg
      exact ⟨x, hm.mem hx, ht⟩
    · exact (hw.job d i seat hd hj hg).imp fun _ hx => ⟨hm.mem hx.1, hx.2⟩
  · intro i seat x hx hs
    rcases List.mem_cons.1 hx with rfl | hx
    · exact hs.elim
    · obtain ⟨hp, h⟩ := hw.confirm i seat x hx hs
      exact ⟨hp.onward hm, h.imp id fun h => h.imp fun _ hp => ⟨hm.mem hp.1, hp.2⟩⟩

/-- Whatever calls interleave, as long as the Seat service reserves proper seats: a
confirmation of an invitation carries a seat, and one that staff or the Seat service named
for this invitation. -/
theorem confirmation_seat_provided
    {ts : List (System.Thread (Nat → Bool) World Exception Request)}
    (hs : (service cfg).Interleaved .empty ts w)
    (hseat : ∀ p, .called (.seatReserved p) ∈ w.journal → p.seatId ≠ "")
    {e : EventId} {token : Nat} {eventName : String} {endsAt : Nat} {operation : String}
    {actorId : Option UserId} {tenantId : TenantId}
    (hx : .produced (.confirmGuest i e token eventName seat endsAt operation) actorId tenantId ∈
      w.journal) :
    ∃ s, seat = some s ∧ s ≠ "" ∧ Provided i (some s) w := by
  have hw := Interleaved.invariant_of_actions hs (I := fun w => ContactInv w ∧ SeatInv w)
    ⟨.empty, .empty⟩ (fun _ _ hi he => ⟨hi.1.environment he,
      hi.2.of_journal (environment_journal he)⟩)
    (fun _ _ hi hen => ⟨hi.1.called, hi.2.called hen⟩)
    fun _ _ _ _ hi hm hA => ⟨hi.1.action (fun _ h => h.1) hA,
      hi.2.action (fun _ h => h.1) hA (hm.mem (by simp))⟩
  obtain ⟨hp, h⟩ := hw.2.confirm i seat _ hx ⟨rfl, rfl⟩
  rcases h with h | ⟨p, hp', rfl⟩
  · obtain ⟨s, rfl, hne⟩ := (Option.any_eq_true _ _).1 h
    exact ⟨s, rfl, by simpa using hne, hp⟩
  · exact ⟨p.seatId, rfl, hseat p hp', hp⟩

theorem confirmation_seat_provided_reserved :
    ∃ s, some "S" = some s ∧ s ≠ "" ∧
      Provided 0 (some s) (trace plainConfig (publicResendRun ++ [seatedCall]) .empty).2 := by
  have hs : (service plainConfig).Serial .empty _ _ :=
    serial_trace (publicResendRun ++ [seatedCall]) .empty (by decide)
  obtain ⟨ts, hts⟩ := hs.interleaved
  have hall : (trace plainConfig (publicResendRun ++ [seatedCall]) .empty).2.journal.all
      (fun x => match x with
        | .called (.seatReserved p) => p.seatId ≠ ""
        | _ => true) = true := by decide
  have hx : .produced (.confirmGuest 0 7 1 "" (some "S") 0 "Send confirm guest notification")
      none 0 ∈ (trace plainConfig (publicResendRun ++ [seatedCall]) .empty).2.journal := by decide
  exact confirmation_seat_provided hts
    (fun p hp => by simpa using List.all_eq_true.1 hall _ hp) hx

end InvitationService

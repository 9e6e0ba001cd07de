import InvitationService.Invariants.Contact

open Relation (ReflTransGen)

namespace InvitationService

open Resumption

variable {cfg : Config} {c : Call} {a u v w : World} {i : Nat} {d : ContactDetails}
  {r : Invitation}

@[simp] theorem PendingUser.details_overrideLocale (p : PendingUser) (locale : Option Locale) :
    (GuestConfirmation.overrideLocale p locale).details = p.details := by
  unfold GuestConfirmation.overrideLocale
  split
  · split <;> rfl
  · rfl

/-- The contact stored with a row, if there is one, has the details `d`. -/
def Invitation.Details (d : ContactDetails) (r : Invitation) : Prop :=
  ∀ p, r.pendingContactPayload = some p → p.details = d

structure CachedDetails (d : ContactDetails) (token : Nat) (w : World) : Prop where
  lt_nextToken : token < w.nextToken
  details : ∀ p, w.pendingContact token = some p → p.details = d

theorem CachedDetails.onward {token : Nat} (h : CachedDetails d token v) (hm : Onward v w) :
    CachedDetails d token w where
  lt_nextToken := Nat.lt_of_lt_of_le h.lt_nextToken hm.nextToken
  details p hp := by
    rcases hm.pendingContact token h.lt_nextToken with hk | hk
    · exact h.details p (by rwa [← hk])
    · rw [hk] at hp
      cases hp

/-- Since `u`, row `i` stores the details `d` only, and every link for it leads to them. -/
structure DetailsInv (u : World) (i : Nat) (d : ContactDetails) (w : World) : Prop where
  contact : ContactInv w
  lt_next : i < w.db.invitations.next
  stored : ∀ r, w.row i = some r → r.Details d
  sent : ∃ l, w.journal = l ++ u.journal ∧
    ∀ x ∈ l, ∀ e token, x.Issues i e token → CachedDetails d token w

section

variable {R : World → World → Prop}

theorem PayloadOf.details {p : PendingUser} (hr : OwnContact i r) (hd : r.Details d)
    (h : PayloadOf R r p w) : p.details = d := by
  obtain ⟨v, ⟨stored, locale, rfl, hs⟩, -⟩ := h
  rw [PendingUser.details_overrideLocale]
  rcases hs with hs | ⟨token, hnone, htoken, -⟩
  · exact hd stored hs
  · have := hr.paired
    rw [hnone, htoken] at this
    cases this

theorem Write.details {o : Option Invitation} (h : Write R cfg c a w i o (some r))
    (hc : ∀ d', c.Submits i d' → d' = d) (hi : i < w.db.invitations.next)
    (ha : i < a.db.invitations.next)
    (hsnap : ∀ x, Snapshot R i x w → OwnContact i x ∧ x.Details d)
    (ho : ∀ x, o = some x → x.Details d) : r.Details d := by
  cases h with
  | insert hle _ => exact absurd hi (Nat.not_lt.2 hle)
  | modify hd _ =>
    intro p hp
    rw [hd.apply_pendingContactPayload] at hp
    exact ho _ rfl p hp
  | reply _ _ _ _ _ _ => exact fun p hp => ho _ rfl p hp
  | attach _ _ _ hsub =>
    intro p hp
    cases hp
    rcases hsub with hsub | hle | hle
    · exact hc _ hsub
    · exact absurd hi (Nat.not_lt.2 hle)
    · exact absurd ha (Nat.not_lt.2 hle)
  | reject _ _ _ => exact nofun
  | send hr _ _ hp _ _ =>
    intro p hp'
    cases hp'
    exact hp.details (hsnap _ hr).1 (hsnap _ hr).2
  | stage _ _ _ _ => exact fun p hp => ho _ rfl p hp

end

theorem Snapshot.details (h : Snapshot (System.Rely (DetailsInv u i d) Onward a) i r w) :
    OwnContact i r ∧ r.Details d := by
  obtain ⟨v, hv, hr⟩ := h
  exact ⟨hr.1.contact.own i r hv, hr.1.stored r hv⟩

theorem Utters.cachedDetails {x : Effect} {e : EventId} {token : Nat}
    (h : Utters (System.Rely (DetailsInv u i d) Onward a) c w x) (hx : x.Issues i e token) :
    CachedDetails d token w := by
  obtain ⟨r, payload, t, _, _, _, _, _, _, rfl, hr, -, hp, ht, -⟩ := h.of_confirms hx.confirms
  obtain ⟨-, -, rfl⟩ : i = i ∧ r.eventId = e ∧ t = token := hx
  have hd := hp.details hr.details.1 hr.details.2
  obtain ⟨v, ⟨hcached, hlt⟩, hv⟩ := ht
  refine CachedDetails.onward ⟨hlt, fun q hq => ?_⟩ hv.2.2.2
  rw [hcached] at hq
  cases hq
  exact hd

theorem DetailsInv.action (hc : ∀ d', c.Submits i d' → d' = d) (ha : i < a.db.invitations.next)
    (hA : Action (System.Rely (DetailsInv u i d) Onward a) cfg c a w v)
    (hw : DetailsInv u i d w) : DetailsInv u i d v where
  contact := hw.contact.action (fun _ h => h.contact) hA
  lt_next := Nat.lt_of_lt_of_le hw.lt_next hA.next_le
  stored r hr := hA.rows (Q := fun j r => j = i → r.Details d)
    (fun _ r hr hj => hw.stored r (hj ▸ hr))
    (fun j _ r hwr ho hj => by
      subst hj
      exact hwr.details hc hw.lt_next ha (fun _ hx => hx.details) fun x hx => ho x hx rfl)
    (fun _ _ x _ _ _ _ _ _ hx hj => hw.stored x (hj ▸ hx)) i r hr rfl
  sent := by
    obtain ⟨l, hl, hsent⟩ := hw.sent
    obtain ⟨m, hm, hu⟩ := hA.journal
    refine ⟨m ++ l, by rw [hm, hl, List.append_assoc], fun x hx e token hxi => ?_⟩
    rcases List.mem_append.1 hx with hx | hx
    · exact ((hu x hx).cachedDetails hxi).onward (.of_action hA)
    · exact (hsent x hx e token hxi).onward (.of_action hA)

theorem DetailsInv.environment (h : World.Environment w v) (hw : DetailsInv u i d w) :
    DetailsInv u i d v where
  contact := hw.contact.environment h
  lt_next := Nat.lt_of_lt_of_le hw.lt_next (Onward.of_environment h).next
  stored r hr := hw.stored r (by rwa [World.row, ← environment_db h])
  sent := by
    obtain ⟨l, hl, hsent⟩ := hw.sent
    exact ⟨l, (environment_journal h).trans hl, fun x hx e token hxi =>
      (hsent x hx e token hxi).onward (.of_environment h)⟩

theorem DetailsInv.called (hw : DetailsInv u i d w) :
    DetailsInv u i d (w.log (.called c)) where
  contact := hw.contact.called
  lt_next := hw.lt_next
  stored := hw.stored
  sent := by
    obtain ⟨l, hl, hsent⟩ := hw.sent
    refine ⟨.called c :: l, congrArg _ hl, fun x hx e token hxi => ?_⟩
    rcases List.mem_cons.1 hx with rfl | hx
    · exact hxi.elim
    · exact (hsent x hx e token hxi).onward (.log w _)

theorem DetailsInv.interleaved {ts : List (System.Thread (Nat → Bool) World Exception Request)}
    (hs : (service cfg).Interleaved v ts w) (hv : DetailsInv u i d v)
    (hts : ∀ x ∈ ts, ∀ d', x.call.call.Submits i d' → d' = d) : DetailsInv u i d w :=
  Interleaved.invariant_of_calls (P := fun q => ∀ d', q.call.Submits i d' → d' = d) hs hts hv
    (fun _ _ hi he => hi.environment he) (fun _ _ hi _ => hi.called)
    fun _ _ hq ha _ _ hi _ hA => hi.action hq ha.lt_next hA

/-- The plus-one `i`, which was `r` at `u`, is updated with success, which leaves `v`. -/
structure Updated (cfg : Config) (i : Nat) (r : Invitation) (input : UpdatePlusOneInput)
    (u v : World) : Prop where
  row : u.row i = some r
  plusOne : r.invitedByInvitationId.isSome = true
  id : input.id = some i
  exec : ∃ user ctx, Prog.Exec (ReflTransGen World.Environment)
    (execute cfg ⟨.updatePlusOnesInvitation input user, ctx⟩)
    (u.log (.called (.updatePlusOnesInvitation input user))) (.ok ()) v

/-- Every link for `i` that went out between `v` and `w` leads to a contact with the details
`d`. -/
def LinksLeadTo (i : Nat) (d : ContactDetails) (v w : World) : Prop :=
  ∀ l, w.journal = l ++ v.journal → ∀ x ∈ l, ∀ e token, x.Issues i e token →
    ∀ payload, w.pendingContact token = some payload → payload.details = d

/-- A plus-one is updated, and links for it are sent later: they lead to the details of the
update if the contact stored with the plus-one already had them, and no reply for it gives
others. -/
theorem update_reaches_links {input : UpdatePlusOneInput}
    {ts₀ ts : List (System.Thread (Nat → Bool) World Exception Request)}
    (hu : (service cfg).Interleaved .empty ts₀ u) (hupdate : Updated cfg i r input u v)
    (hs : (service cfg).Interleaved v ts w) (hstored : r.Details input.details)
    (hts : ∀ x ∈ ts, ∀ d, x.call.call.Submits i d → d = input.details) :
    LinksLeadTo i input.details v w := by
  intro l hl x hx e token hxi payload hpayload
  have hinv : DetailsInv u i input.details u :=
    ⟨contactInv_of_interleaved hu, u.db.invitations.id_lt hupdate.row, fun x hx => by
      obtain rfl : r = x := Option.some.inj (hupdate.row.symm.trans hx)
      exact hstored, [], rfl, fun _ hx => absurd hx List.not_mem_nil⟩
  have hv : DetailsInv u i input.details v := by
    obtain ⟨user, ctx, hexec⟩ := hupdate.exec
    have hen : (service cfg).enabled ⟨.updatePlusOnesInvitation input user, ctx⟩ u := trivial
    have hrun := System.Interleaved.start.call hen
    have hdone : (service cfg).Interleaved u ([] ++ [_]) v := .finish hexec hrun
    refine hinv.interleaved hdone fun x hx d hd => ?_
    obtain rfl := List.mem_singleton.1 hx
    exact hd.elim
  obtain ⟨m, hm, hsent⟩ := (hv.interleaved hs hts).sent
  obtain ⟨n, hn, -⟩ := hv.sent
  obtain rfl : m = l ++ n := List.append_cancel_right
    (by rw [List.append_assoc, ← hn, ← hl, hm])
  exact (hsent x (List.mem_append_left _ hx) e token hxi).details payload hpayload

def staffRun : List Request :=
  [⟨.createInvitation
      { eventId := some 7, maxInvitees := some 1, firstName := "A", lastName := "B" }
      5, { tenantId := some 1 }⟩,
    ⟨.roleAssigned ⟨7, 9, .admin, 0⟩, {}⟩,
    ⟨.createPlusOnesInvitation {
      eventId := some 7, invitedByInvitationId := some 0, firstName := "E", lastName := "F"
      plusOneAgeCategory := some .overSix
      phoneNumbers := [{ number := "2", type := .mobile, countryCode := "49" }] } 9 "de-DE",
      { tenantId := some 1 }⟩]

def correction (number : String) : UpdatePlusOneInput where
  id := some 1
  firstName := "E"
  lastName := "F"
  plusOneAgeCategory := some .overSix
  phoneNumbers := [{ number, type := .mobile, countryCode := "49" }]

def staffWorld : World := (trace plainConfig staffRun .empty).2

def correctedWorld (number : String) : World :=
  (trace plainConfig [⟨.updatePlusOnesInvitation (correction number) 9, {}⟩] staffWorld).2

def linkedWorld (number : String) : World :=
  (trace plainConfig [⟨.seatReserved { eventId := 7, invitationId := 1, seatId := "S" }, {}⟩]
    (correctedWorld number)).2

theorem staffWorld_interleaved : ∃ ts, (service plainConfig).Interleaved .empty ts staffWorld :=
  System.Serial.interleaved (serial_trace staffRun .empty (by decide))

theorem updated_correction {number : String} (hr : staffWorld.row 1 = some r)
    (hplus : r.invitedByInvitationId.isSome = true)
    (hok : (trace plainConfig [⟨.updatePlusOnesInvitation (correction number) 9, {}⟩]
      staffWorld).1.all (fun x => x.outcome.isOk) = true) :
    Updated plainConfig 1 r (correction number) staffWorld (correctedWorld number) where
  row := hr
  plusOne := hplus
  id := rfl
  exec := by
    exact ⟨9, {}, exec_trace hok⟩

theorem linkedWorld_interleaved (number : String) : ∃ ts,
    (service plainConfig).Interleaved (correctedWorld number) ts (linkedWorld number) ∧
      ∀ x ∈ ts, ∀ d, ¬ x.call.call.Submits 1 d := by
  obtain ⟨ts, hs, hcalls⟩ := System.Serial.interleaved_calls
    (@serial_trace plainConfig
      [⟨.seatReserved { eventId := 7, invitationId := 1, seatId := "S" }, {}⟩]
      (correctedWorld number) rfl)
  refine ⟨ts, hs, fun x hx d hd => ?_⟩
  obtain ⟨y, hy, he⟩ := hcalls x hx
  rw [← he, List.mem_singleton.1 (call_of_mem_trace hy)] at hd
  exact hd

theorem update_reaches_links_unchanged :
    LinksLeadTo 1 (correction "2").details (correctedWorld "2") (linkedWorld "2") := by
  have hrow : (staffWorld.row 1).any (fun r => r.invitedByInvitationId.isSome &&
      r.pendingContactPayload.all (·.details = (correction "2").details)) = true := by decide
  obtain ⟨r, hr, hrok⟩ := (Option.any_eq_true _ _).1 hrow
  obtain ⟨hplus, hstored⟩ := Bool.and_eq_true_iff.1 hrok
  obtain ⟨ts₀, hu⟩ := staffWorld_interleaved
  obtain ⟨ts, hs, hts⟩ := linkedWorld_interleaved "2"
  refine update_reaches_links hu (updated_correction hr hplus (by decide)) hs (fun p hp => ?_)
    fun x hx d hd => absurd hd (hts x hx d)
  rw [hp] at hstored
  exact of_decide_eq_true hstored

/-- The phone number was wrong, and the link still leads to it. -/
theorem not_update_reaches_links : ¬ ∀ i r input u v w ts₀ ts,
    (service plainConfig).Interleaved .empty ts₀ u → Updated plainConfig i r input u v →
    (service plainConfig).Interleaved v ts w → LinksLeadTo i input.details v w := by
  intro hall
  have hrow : (staffWorld.row 1).any (fun r => r.invitedByInvitationId.isSome) = true := by decide
  obtain ⟨r, hr, hplus⟩ := (Option.any_eq_true _ _).1 hrow
  obtain ⟨ts₀, hu⟩ := staffWorld_interleaved
  obtain ⟨ts, hs, -⟩ := linkedWorld_interleaved "3"
  have hlinks := hall 1 r (correction "3") _ _ _ ts₀ ts hu
    (updated_correction hr hplus (by decide)) hs
  have hwrong : ((linkedWorld "3").pendingContact 1).any
      (·.details ≠ (correction "3").details) = true := by decide
  obtain ⟨payload, hpayload, hne⟩ := (Option.any_eq_true _ _).1 hwrong
  refine of_decide_eq_true hne (hlinks ((linkedWorld "3").journal.take 3) (by rfl)
    (.produced (.confirmGuest 1 7 1 "" (some "S") 0 "Send confirm guest notification") none 0)
    (by decide) 7 1 ⟨rfl, rfl, rfl⟩ payload hpayload)

end InvitationService

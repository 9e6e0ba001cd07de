import InvitationService.Lifecycle.Interleaving

namespace InvitationService

open Resumption

variable {cfg : Config} {c : Call} {a v w : World} {i : Nat} {r : Invitation}

structure OwnContact (i : Nat) (r : Invitation) : Prop where
  paired : r.pendingContactId.isSome = r.pendingContactPayload.isSome
  fresh : ∀ p, r.pendingContactPayload = some p → FreshContact i r.eventId p

structure Anchored (i : Nat) (e : EventId) (token : Nat) (w : World) : Prop where
  lt_nextToken : token < w.nextToken
  lt_next : i < w.db.invitations.next
  eventId : ∀ r, w.row i = some r → r.eventId = e
  payload : ∀ p, w.pendingContact token = some p → p.invitationId = i ∧ p.eventId = e

/-- A message that hands out `token` for invitation `i` of event `e`. -/
def Effect.Issues (i : Nat) (e : EventId) (token : Nat) : Effect → Prop
  | .produced (.confirmGuest j f t ..) _ _ => j = i ∧ f = e ∧ t = token
  | _ => False

theorem Effect.Issues.confirms {x : Effect} {e : EventId} {token : Nat} (h : x.Issues i e token) :
    x.Confirms i := by
  cases x with
  | produced m _ _ => cases m <;> first | exact h.1 | exact h.elim
  | _ => exact h.elim

/-- Every row keeps its own contact, and every link that went out is anchored. -/
structure ContactInv (w : World) : Prop where
  own : ∀ i r, w.row i = some r → OwnContact i r
  anchored : ∀ i e token, ∀ x ∈ w.journal, x.Issues i e token → Anchored i e token w

theorem Anchored.onward {e : EventId} {token : Nat} (h : Anchored i e token w)
    (hm : Onward w v) : Anchored i e token v where
  lt_nextToken := Nat.lt_of_lt_of_le h.lt_nextToken hm.nextToken
  lt_next := Nat.lt_of_lt_of_le h.lt_next hm.next
  eventId r hr := by
    obtain ⟨x, hx, he⟩ := hm.event i r hr h.lt_next
    exact he.trans (h.eventId x hx)
  payload p hp := by
    rcases hm.pendingContact token h.lt_nextToken with hk | hk
    · exact h.payload p (by rwa [← hk])
    · rw [hk] at hp
      cases hp

theorem FreshContact.overrideLocale {e : EventId} {p : PendingUser} (h : FreshContact i e p)
    (locale : Option Locale) : FreshContact i e (GuestConfirmation.overrideLocale p locale) := by
  unfold GuestConfirmation.overrideLocale
  split
  · split
    · exact ⟨h.invitationId, h.eventId, h.seatId⟩
    · exact h
  · exact h

theorem OwnContact.of_eq {x : Invitation} (h : OwnContact i x) (he : r.eventId = x.eventId)
    (hid : r.pendingContactId = x.pendingContactId)
    (hp : r.pendingContactPayload = x.pendingContactPayload) : OwnContact i r :=
  ⟨by rw [hid, hp]; exact h.paired, fun p k => he ▸ h.fresh p (hp ▸ k)⟩

theorem OwnContact.of_fresh {token : Nat} {p : PendingUser} (h : FreshContact i r.eventId p)
    (hid : r.pendingContactId = some token) (hp : r.pendingContactPayload = some p) :
    OwnContact i r :=
  ⟨by rw [hid, hp]; rfl, fun q hq => by rw [hp] at hq; cases hq; exact h⟩

theorem OwnContact.of_none (hid : r.pendingContactId = none)
    (hp : r.pendingContactPayload = none) : OwnContact i r :=
  ⟨by rw [hid, hp]; rfl, fun q hq => by rw [hp] at hq; cases hq⟩

section

variable {I : World → Prop} (hI : ∀ w, I w → ContactInv w)

include hI

theorem Snapshot.ownContact (h : Snapshot (System.Rely I Onward a) i r w) : OwnContact i r := by
  obtain ⟨v, hv, hr⟩ := h
  exact (hI v hr.1).own i r hv

omit hI in
/-- What goes out for a row is the contact stored with it: a cached contact stands in
only for a payload that is missing. -/
theorem PayloadOf.fresh {R : World → World → Prop} {p : PendingUser} (hr : OwnContact i r)
    (h : PayloadOf R r p w) : FreshContact i r.eventId p := by
  obtain ⟨v, ⟨stored, locale, rfl, hs⟩, -⟩ := h
  rcases hs with hs | ⟨token, hnone, htoken, -⟩
  · exact (hr.fresh stored hs).overrideLocale locale
  · have := hr.paired
    rw [hnone, htoken] at this
    cases this

omit hI in
theorem Snapshot.eventId_eq {x : Invitation} (h : Snapshot (System.Rely I Onward a) i r w)
    (hx : x.KeepsEvent i w) : x.eventId = r.eventId := by
  obtain ⟨v, hv, hr⟩ := h
  have hlt := v.db.invitations.id_lt hv
  obtain ⟨y, hy, he⟩ := hx (Nat.lt_of_lt_of_le hlt hr.2.2.2.next)
  obtain ⟨z, hz, he'⟩ := hr.2.2.2.event i y hy hlt
  rw [hv] at hz
  cases hz
  exact he.trans he'

theorem Write.ownContact {o : Option Invitation}
    (h : Write (System.Rely I Onward a) cfg c a w i o (some r))
    (ho : ∀ x, o = some x → x.KeepsEvent i w ∧ OwnContact i x) : OwnContact i r := by
  cases h with
  | insert _ hb => exact .of_none hb.blank.pendingContactId hb.blank.pendingContactPayload
  | modify hd _ =>
    exact (ho _ rfl).2.of_eq rfl (hd.apply_pendingContactId _ _)
      (hd.apply_pendingContactPayload _ _)
  | reply _ _ _ _ _ _ => exact (ho _ rfl).2.of_eq rfl rfl rfl
  | @attach x e token payload he hfresh _ _ =>
    have hx : x.eventId = e := by
      rcases he with he | ⟨r', hr', rfl⟩
      · exact he
      · exact hr'.eventId_eq (ho _ rfl).1
    subst hx
    exact .of_fresh hfresh rfl rfl
  | reject _ _ _ => exact .of_none rfl rfl
  | @send r' x payload token now inc hr _ _ hp _ _ =>
    have hfresh := hp.fresh (hr.ownContact hI)
    rw [← hr.eventId_eq (ho _ rfl).1] at hfresh
    exact .of_fresh hfresh rfl rfl
  | stage _ _ _ _ => exact (ho _ rfl).2.of_eq rfl rfl rfl

theorem ContactInv.own_of_action (hA : Action (System.Rely I Onward a) cfg c a w v)
    (hw : ContactInv w) : ∀ i r, v.row i = some r → OwnContact i r := fun i r hr =>
  (hA.rows (Q := fun i r => r.KeepsEvent i w ∧ OwnContact i r)
    (fun i r hr => ⟨fun _ => ⟨r, hr, rfl⟩, hw.own i r hr⟩)
    (fun _ _ _ hwr ho => ⟨hwr.keepsEvent fun x hx => (ho x hx).1, hwr.ownContact hI ho⟩)
    (fun i _ x _ _ _ _ _ _ hx => ⟨fun _ => ⟨x, hx, rfl⟩, (hw.own i x hx).of_eq rfl rfl rfl⟩)
    i r hr).2

theorem Utters.anchored {x : Effect} {e : EventId} {token : Nat}
    (h : Utters (System.Rely I Onward a) c w x) (hx : x.Issues i e token) :
    Anchored i e token w := by
  obtain ⟨r, payload, t, _, _, _, _, _, _, rfl, hr, -, hp, ht, -⟩ := h.of_confirms hx.confirms
  obtain ⟨-, rfl, rfl⟩ : i = i ∧ r.eventId = e ∧ t = token := hx
  have hfresh := hp.fresh (hr.ownContact hI)
  obtain ⟨u, ⟨hcached, hlt⟩, hu⟩ := ht
  refine ⟨Nat.lt_of_lt_of_le hlt hu.2.2.2.nextToken, ?_, fun x hx => ?_, fun p hp => ?_⟩
  · obtain ⟨v, hv, hr⟩ := hr
    exact Nat.lt_of_lt_of_le (v.db.invitations.id_lt hv) hr.2.2.2.next
  · exact hr.eventId_eq fun _ => ⟨x, hx, rfl⟩
  · rcases hu.2.2.2.pendingContact t hlt with hk | hk
    · rw [hk, hcached] at hp
      cases hp
      exact ⟨hfresh.invitationId, hfresh.eventId⟩
    · rw [hk] at hp
      cases hp

theorem ContactInv.action (hA : Action (System.Rely I Onward a) cfg c a w v)
    (hw : ContactInv w) : ContactInv v where
  own := hw.own_of_action hI hA
  anchored i e token x hx hxi := by
    obtain ⟨l, hl, hu⟩ := hA.journal
    rw [hl, List.mem_append] at hx
    rcases hx with hx | hx
    · exact ((hu x hx).anchored hI hxi).onward (.of_action hA)
    · exact (hw.anchored i e token x hx hxi).onward (.of_action hA)

end

theorem ContactInv.empty : ContactInv .empty :=
  ⟨fun _ _ h => (by cases h), fun _ _ _ _ h => (by cases h)⟩

theorem ContactInv.environment (h : World.Environment w v) (hw : ContactInv w) :
    ContactInv v where
  own i r hr := hw.own i r (by rwa [World.row, ← environment_db h])
  anchored i e token x hx hxi :=
    (hw.anchored i e token x (environment_journal h ▸ hx) hxi).onward (.of_environment h)

theorem ContactInv.called (hw : ContactInv w) : ContactInv (w.log (.called c)) where
  own := hw.own
  anchored i e token x hx hxi := by
    rcases List.mem_cons.1 hx with rfl | hx
    · exact hxi.elim
    · exact (hw.anchored i e token x hx hxi).onward (.log w _)

theorem contactInv_of_interleaved
    {ts : List (System.Thread (Nat → Bool) World Exception Request)}
    (hs : (service cfg).Interleaved .empty ts w) : ContactInv w :=
  Interleaved.invariant_of_actions hs .empty (fun _ _ hi he => hi.environment he)
    (fun _ _ hi _ => hi.called) fun _ _ _ _ hi _ hA => hi.action (fun _ h => h) hA

/-- Whatever calls interleave: a row has both a token and a payload or neither, the
payload is the row's own, and a contact cached under a token that went out in a link for an
invitation names that invitation and its event. -/
theorem confirmation_tokens_own {ts : List (System.Thread (Nat → Bool) World Exception Request)}
    (hs : (service cfg).Interleaved .empty ts w) :
    (∀ i r, w.row i = some r → (r.pendingContactId ≠ none ↔ r.pendingContactPayload ≠ none) ∧
      ∀ p, r.pendingContactPayload = some p → p.invitationId = i) ∧
    ∀ i e token eventName seatId endsAt operation actorId tenantId,
      .produced (.confirmGuest i e token eventName seatId endsAt operation) actorId tenantId ∈
        w.journal →
      ∀ p, w.pendingContact token = some p → p.invitationId = i ∧ p.eventId = e ∧
        ∀ r, w.row i = some r → r.eventId = p.eventId := by
  have hw := contactInv_of_interleaved hs
  refine ⟨fun i r hr => ?_, fun i e token _ _ _ _ _ _ hx p hp => ?_⟩
  · have hown := hw.own i r hr
    refine ⟨?_, fun p hp => (hown.fresh p hp).invitationId⟩
    rw [← Option.isSome_iff_ne_none, ← Option.isSome_iff_ne_none, hown.paired]
  · have hanch := hw.anchored i e token _ hx ⟨rfl, rfl, rfl⟩
    obtain ⟨hi, he⟩ := hanch.payload p hp
    exact ⟨hi, he, fun r hr => (hanch.eventId r hr).trans he.symm⟩

theorem confirmation_tokens_own_seated :
    let w := (trace plainConfig (publicResendRun ++ [seatedCall]) .empty).2
    (w.row 0).any (·.pendingContactId = some 1) = true ∧
    (∀ i r, w.row i = some r → (r.pendingContactId ≠ none ↔ r.pendingContactPayload ≠ none) ∧
      ∀ p, r.pendingContactPayload = some p → p.invitationId = i) ∧
    ∀ p, w.pendingContact 1 = some p → p.invitationId = 0 ∧ p.eventId = 7 ∧
      ∀ r, w.row 0 = some r → r.eventId = p.eventId := by
  have hs : (service plainConfig).Serial .empty _ _ :=
    serial_trace (publicResendRun ++ [seatedCall]) .empty (by decide)
  obtain ⟨ts, hts⟩ := hs.interleaved
  have h := confirmation_tokens_own hts
  exact ⟨by decide, h.1, h.2 0 7 1 "" (some "S") 0 "Send confirm guest notification" none 0
    (by decide)⟩

end InvitationService

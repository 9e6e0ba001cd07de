import InvitationService.Invariants.Approval

open Relation (ReflTransGen)

namespace InvitationService

open Resumption

variable {cfg : Config} {c : Call} {a w v : World} {i : Nat}

def Shut (r : Invitation) : Prop :=
  r.status = .rejected ∨ (r.status = .declined ∧ r.rsvpChoice = some .no)

/-- A reply that gets past the checks of a rejected invitation, and does not decline: `reply`
looks at the RSVP alone. -/
def Revives (i : Nat) (w : World) (c : Call) : Prop :=
  ∃ input locale r plan, c = .replyInvitation input locale ∧ input.invitationId = i ∧
    w.row i = some r ∧ r.status = .rejected ∧ GuestWrite.planReply r input = .ok plan ∧
    input.choice ≠ .no

theorem not_actionable_of_shut {r : Invitation} (h : Shut r) :
    GuestConfirmation.actionable r.status ≠ true := by
  rcases h with h | h <;> simp [GuestConfirmation.actionable, h]

theorem Shut.of_core {r x : Invitation} (h : x.core = r.core) (hx : Shut x) : Shut r := by
  rw [Shut, ← core_status h, ← core_rsvpChoice h]
  exact hx

theorem Shut.write {o : Option Invitation} {r : Invitation}
    (h : Write Kept cfg c a w i o (some r)) (hlt : i < w.db.invitations.next)
    (hc : ¬ Revives i a c) (ho : ∀ x, o = some x → Shut x) : Shut r := by
  cases h with
  | insert hn _ => exact absurd hlt (by omega)
  | modify hd _ =>
    rw [Shut, hd.apply_status, hd.apply_rsvpChoice]
    exact ho _ rfl
  | @reply input locale r x plan now hcall hi ha hsnap hx hplan =>
    have hspec := GuestWrite.planReply_spec hplan
    have hcore := hsnap.core_eq hx
    have hno : input.choice = .no := by
      rcases ho x rfl with hst | ⟨-, hr⟩
      · by_contra hne
        obtain ⟨r', hr', hc'⟩ := hsnap.arrival ha hx
        refine hc ⟨input, locale, r', plan, hcall, hi, hr', ?_, ?_, hne⟩
        · exact (core_status hc').trans ((core_status hcore).symm.trans hst)
        · rw [← GuestWrite.planReply_core, hc', GuestWrite.planReply_core, hplan]
      · have := hspec.undecided.2
        rw [← core_rsvpChoice hcore] at this
        exact absurd hr this
    refine .inr ⟨?_, ?_⟩
    · change plan.resultingStatus = _
      rw [hspec.status, hno]
    · change some plan.decision.newChoice = _
      rw [hspec.newChoice, hno]
  | attach _ _ _ _ => exact (ho _ rfl :)
  | reject _ _ _ => exact .inl rfl
  | send _ _ _ _ _ _ => exact (ho _ rfl :)
  | @stage ids staged e r x hcall hsnap hx hg =>
    have hst := core_status (hsnap.core_eq hx)
    cases staged <;> rcases ho x rfl with h | h <;>
      simp [AdminWrite.canStage, AdminWrite.canUnstage, ← hst, h] at hg

structure Closed (i : Nat) (s w : World) : Prop where
  lt : i < w.db.invitations.next
  row : ∀ r, w.row i = some r → Shut r
  journal : ∃ l, w.journal = l ++ s.journal ∧ ∀ x ∈ l, ¬ x.Confirms i

theorem Closed.action {s : World} (hA : Action Kept cfg c a w v) (hw : Closed i s w)
    (hlt : i < a.db.invitations.next) (hc : ¬ Revives i a c) (hstaff : ¬ c.Judges i true) :
    Closed i s v := by
  refine ⟨hw.lt.trans_le hA.next_le, fun r hr => ?_, ?_⟩
  · refine hA.rows (Q := fun j r => j = i → Shut r) (fun j r hr hj => hw.row r (by rwa [hj] at hr))
      (fun j o r hwr ho hj => ?_) (fun j r x actorId now _ _ hauth _ hx hj => ?_) i r hr rfl
    · subst hj
      exact Shut.write hwr hw.lt hc fun x hx => ho x hx rfl
    · subst hj
      -- neither staff, nor the call that created the row, nor its guest can approve it
      obtain ⟨u, hu, huw⟩ := hauth
      rcases hu with hu | hu | ⟨input, locale, r', -, -, hr', hacc⟩
      · exact absurd hu hstaff
      · exact absurd hlt (by omega)
      · have hs := core_status (Snapshot.core_eq ⟨u, hr', huw⟩ hx)
        rcases hw.row x hx with h | h <;> simp [← hs, h] at hacc
  · obtain ⟨l, hl, hno⟩ := hw.journal
    obtain ⟨m, hm, hu⟩ := hA.journal
    refine ⟨m ++ l, by rw [hm, hl, List.append_assoc], fun x hx hxi => ?_⟩
    rcases List.mem_append.1 hx with hx | hx
    · obtain ⟨r, _, _, _, _, _, _, _, _, -, ⟨u, hu, huw⟩, hact, -⟩ := (hu x hx).of_confirms hxi
      obtain ⟨y, hy, hcore⟩ := huw.row_some hu
      exact not_actionable_of_shut ((hw.row y hy).of_core hcore) hact
    · exact hno x hx hxi

theorem Closed.environment {s : World} (h : World.Environment w v) (hw : Closed i s w) :
    Closed i s v where
  lt := by rw [environment_db h]; exact hw.lt
  row := by rw [World.row, environment_db h]; exact hw.row
  journal := by rw [environment_journal h]; exact hw.journal

/-- A rejection sticks through every run in which no reply revives the invitation and staff
does not approve it. -/
theorem rejection_sticks {s w : World} {h : List CallRecord}
    {r : Invitation} (hr : s.row i = some r) (hst : r.status = .rejected)
    (hs : (service cfg).Serial s h w) (hstaff : ∀ x ∈ h, ¬ x.call.call.Judges i true)
    (hreply : ∀ x ∈ h, ¬ Revives i x.before x.call.call) :
    (∀ r', w.row i = some r' → r'.status ≠ .accepted ∧ r'.status ≠ .approved) ∧
      ¬ ConfirmsBetween i s w := by
  have hinv : Closed i s w := by
    refine hs.stepwise (P := fun x => ¬ x.call.call.Judges i true ∧
      ¬ Revives i x.before x.call.call)
      (J := fun q t u => (¬ q.call.Judges i true ∧ ¬ Revives i t q.call ∧
        i < t.db.invitations.next) ∧ Closed i s u)
      (fun x hx => ⟨hstaff x hx, hreply x hx⟩) ?_ ?_ service_guarantees ?_ ?_ ?_ fun _ _ _ h => h.2
    · refine ⟨s.db.invitations.id_lt hr, fun r' hr' => ?_, [], rfl, by simp⟩
      rw [hr] at hr'
      cases hr'
      exact .inl hst
    · exact fun _ _ ht he => ht.environment he
    · intro q t _ ht _ hP
      refine ⟨⟨hP.1, hP.2, ht.lt⟩, ht.lt, ht.row, ?_⟩
      obtain ⟨l, hl, hno⟩ := ht.journal
      exact ⟨.called q.call :: l, by simp [service, hl], by simpa [Effect.Confirms] using hno⟩
    · exact fun _ _ _ _ hu he => ⟨hu.1, hu.2.environment he⟩
    · rintro q t u v ⟨hq, hu⟩ hA
      exact ⟨hq, hu.action hA hq.2.2 hq.2.1 hq.1⟩
  refine ⟨fun r' hr' => ?_, ?_⟩
  · rcases hinv.row r' hr' with h | h <;> simp [h]
  · rintro ⟨l, hl, x, hx, hxi⟩
    obtain ⟨m, hm, hno⟩ := hinv.journal
    obtain rfl : l = m := List.append_cancel_right (hl.symm.trans hm)
    exact hno x hx hxi

def rejectionRun : List Request :=
  [⟨.createInvitation { eventId := some 7, firstName := "A", lastName := "B" } 5,
      { tenantId := some 1 }⟩,
    ⟨.approveInvitation { id := 0, approve := false, actorId := 5, activeEventId := some 7 },
      { tenantId := some 1 }⟩]

def rejectedWorld : World := (trace plainConfig rejectionRun .empty).2

def replyCall (choice : RsvpChoice) : Request :=
  ⟨.replyInvitation { invitationId := 0, choice, replyInput := some {
    firstName := "A", lastName := "B"
    phoneNumbers := [{ number := "1", type := .mobile, countryCode := "49" }] } } "de-DE",
    { tenantId := some 1 }⟩

theorem rejection_sticks_declined :
    (∀ r, (trace plainConfig [replyCall .no] rejectedWorld).2.row 0 = some r →
      r.status ≠ .accepted ∧ r.status ≠ .approved) ∧
    ¬ ConfirmsBetween 0 rejectedWorld (trace plainConfig [replyCall .no] rejectedWorld).2 := by
  have hr : ∃ r, rejectedWorld.row 0 = some r ∧ r.status = .rejected := by
    have : (rejectedWorld.row 0).map Invitation.status = some .rejected := by decide
    exact Option.map_eq_some_iff.1 this
  obtain ⟨r, hr, hst⟩ := hr
  refine rejection_sticks hr hst (serial_trace [replyCall .no] _ (by decide)) ?_ ?_
  · intro x hx
    obtain rfl := List.mem_singleton.1 hx
    exact id
  · intro x hx
    obtain rfl := List.mem_singleton.1 hx
    rintro ⟨_, _, _, _, hcall, _, _, _, _, hne⟩
    cases hcall
    exact hne rfl

/-- The guest of a rejected invitation accepts it all the same. -/
theorem rejection_overwritten : ∃ h s g w, (service plainConfig).Serial .empty h s ∧
    (s.row 0).map Invitation.status = some .rejected ∧ (service plainConfig).Serial s g w ∧
    (∀ x ∈ g, ¬ x.call.call.Judges 0 true) ∧
    (w.row 0).map Invitation.status = some .accepted := by
  refine ⟨_, rejectedWorld, _, _, serial_trace rejectionRun .empty (by decide), by decide,
    serial_trace [replyCall .yes] _ (by decide), fun x hx => ?_, by decide⟩
  obtain rfl := List.mem_singleton.1 hx
  exact id

end InvitationService

import InvitationService.Isolation.Footprint

namespace InvitationService

open Resumption

def Effect.Names (i : Nat) : Effect → Prop
  | .produced (.confirmGuest j _ _ _ _ _ _) _ _ => j = i
  | .produced (.seatReserve p) _ _ => p.invitationId = i
  | .produced (.milestoneRecorded _ _ _ j) _ _ => j = i
  | .produced (.seatingInfoUpdated _ j _ _) _ _ => j = i
  | .scheduled (.generateTicket j _ _ _ _) _ => j = i
  | .scheduled (.remind j _ _) _ => j = i
  | .approved j _ | .rejected j _ | .resent j | .reminded j _ | .signupMarker j _ => j = i
  | _ => False

theorem Effect.About.names {F : (Invitation → Prop) → Prop} {x : Effect} {i : Nat} (h : x.About F)
    (hi : x.Names i) (hF : ∀ P Q : Invitation → Prop, (∀ r, P r → Q r) → F P → F Q) :
    F fun r => r.id = i := by
  unfold Effect.Names at hi
  split at hi
  all_goals first
    | exact hi.elim
    | (subst hi; exact h)
    | (subst hi; exact hF _ _ (fun _ hr => hr.1) h)

/-- The invitations `X` are as they were at `s₀`, and nothing has been sent, stored or done about
them since. -/
structure Untouched (X : Nat → Prop) (s₀ s : World) : Prop where
  row : ∀ i, X i → s.row i = s₀.row i
  outbox : ∃ o, s.db.outbox = s₀.db.outbox ++ o ∧ ∀ x ∈ o, ¬ X x.payload.aggregateId
  resendCooldown : ∀ i, X i → s.resendCooldown i = true → s₀.resendCooldown i = true
  locks : ∀ l : Lock, X l.invitationId → s.locks l = s₀.locks l ∨ s.locks l = none
  journal : ∃ l, s.journal = l ++ s₀.journal ∧ ∀ x ∈ l, ∀ i, X i → ¬ x.Names i

namespace Untouched

variable {X : Nat → Prop} {s₀ s t : World}

theorem refl (s : World) : Untouched X s s :=
  ⟨fun _ _ => rfl, ⟨[], by simp, by simp⟩, fun _ _ h => h, fun _ _ => .inl rfl,
    [], rfl, by simp⟩

theorem trans {u : World} (h : Untouched X s₀ s) (k : Untouched X s u) : Untouched X s₀ u where
  row i hi := (k.row i hi).trans (h.row i hi)
  outbox := by
    obtain ⟨o, ho, hx⟩ := h.outbox
    obtain ⟨o', ho', hx'⟩ := k.outbox
    exact ⟨o ++ o', by rw [ho', ho, List.append_assoc], List.forall_mem_append.2 ⟨hx, hx'⟩⟩
  resendCooldown i hi hc := h.resendCooldown i hi (k.resendCooldown i hi hc)
  locks l hl := by
    rcases k.locks l hl with hk | hk
    · rw [hk]
      exact h.locks l hl
    · exact .inr hk
  journal := by
    obtain ⟨l, hl, hx⟩ := h.journal
    obtain ⟨l', hl', hx'⟩ := k.journal
    exact ⟨l' ++ l, by rw [hl', hl, List.append_assoc], List.forall_mem_append.2 ⟨hx', hx⟩⟩

theorem of_environment (h : World.Environment s t) : Untouched X s t := by
  have hrefl : Untouched X s s := .refl s
  cases h with
  | pass _ => exact { hrefl with }
  | forget _ => exact { hrefl with }
  | cool j =>
    refine { hrefl with resendCooldown := fun i _ hi => ?_ }
    by_cases hij : i = j
    · subst hij
      simp at hi
    · simpa [hij] using hi
  | unlock k =>
    refine { hrefl with locks := fun l _ => ?_ }
    by_cases hlk : l = k
    · subst hlk
      simp
    · simp [hlk]

theorem of_alters {c : Call} (h : Alters c s t) : Untouched X s t := by
  rw [h.rest]
  exact { refl s with }

theorem of_confined {G : World → Prop} {E : Scope}
    (h : Confined (fun P => ∃ u, G u ∧ u.Has E P) E s t)
    (hE : ∀ i e, X i → ¬ E i e)
    (hup : ∀ i p, X i → s.db.invitations.parent i = some p → X p) : Untouched X s t := by
  have hF : ∀ {i}, X i → ¬ ∃ u, G u ∧ u.Has E fun r => r.id = i := by
    rintro i hi ⟨u, -, r, -, hr, rfl⟩
    exact hE _ _ hi hr
  have hbelow : ∀ i, s.db.invitations.Below E i → ¬ X i := by
    intro i hi
    induction hi with
    | root _ hr => exact fun hx => hE _ _ hx hr
    | plusOne hp _ ih => exact fun hx => ih (hup _ _ hx hp)
  refine ⟨fun i hi => ?_, ?_, fun i hi hc => ?_, fun l hl => ?_, ?_⟩
  · cases ht : t.row i with
    | none =>
      cases hs : s.row i with
      | none => rfl
      | some r =>
        exact absurd hi (hbelow i (h.invitations.gone i (Option.isSome_of_eq_some hs) ht))
    | some r =>
      rcases h.invitations.row i r ht with hs | ⟨hr, -⟩
      · exact hs.symm
      · exact absurd hr (hE _ _ hi)
  · obtain ⟨o, ho, hx⟩ := h.outbox
    refine ⟨o, ho, fun x hxo hi => ?_⟩
    rcases hx x hxo with hx | ⟨-, e, he⟩
    · exact hF hi hx
    · exact hE _ _ hi he
  · rcases h.resendCooldown i with hi' | hi'
    · rw [← hi']
      exact hc
    · exact absurd hi' (hF hi)
  · rcases h.locks l with hl' | ⟨e, he⟩
    · exact .inl hl'
    · exact absurd he (hE _ _ hl)
  · obtain ⟨l, hl, hx⟩ := h.journal
    refine ⟨l, hl, fun x hxl i hi hn => hF hi ?_⟩
    exact (hx x hxl).names hn fun P Q hPQ ⟨u, hu, r, hr, hE, hP⟩ => ⟨u, hu, r, hr, hE, hPQ r hP⟩

end Untouched

section

variable {cfg : Config} {X : Nat → Prop} {s₀ s : World}
  {ts : List (System.Thread (Nat → Bool) World Exception Request)}

theorem untouched_of_passed {I : World → Prop} (hs : (service cfg).Interleaved s₀ ts s)
    (hup : ∀ i p, X i → s₀.db.invitations.parent i = some p → X p)
    (hcalls : ∀ x ∈ ts, ∀ i e, X i → ¬ x.call.call.scope cfg I x.start i e)
    (hI : ∀ u, (service cfg).Passed s₀ u ts s → I u) : Untouched X s₀ s := by
  induction hs with
  | start => exact .refl _
  | env _ he ih => exact (ih hcalls fun u hu => hI u (hu.env he)).trans (.of_environment he)
  | @call ts s q _ hen ih =>
    refine (ih (fun x hx => hcalls x (List.mem_cons_of_mem _ hx)) fun u hu =>
      hI u (hu.call hen)).trans ?_
    exact { Untouched.refl s with journal := ⟨[.called q.call], rfl, by simp [Effect.Names]⟩ }
  | @step us vs q a s β f k i hs ih =>
    have hscope : ∀ j e, X j → ¬ q.call.scope cfg I a j e :=
      hcalls ⟨q, a, _⟩ (List.mem_append_right _ List.mem_cons_self)
    have hpast := ih (fun x hx => by
      rcases List.mem_append.1 hx with hx | hx
      · exact hcalls x (List.mem_append_left _ hx)
      · rcases List.mem_cons.1 hx with rfl | hx
        · exact hscope
        · exact hcalls x (List.mem_append_right _ (List.mem_cons_of_mem _ hx)))
      fun u hu => hI u (hu.step i)
    have hstep := Interleaved.footprint hs (fun u hu => hI u (hu.step i)) i
    refine hpast.trans ?_
    by_cases hq : q.call.Projects
    · exact .of_alters (hstep.projections hq)
    · refine .of_confined ((hstep.invitations hq).mono fun _ ⟨u, hP, hu⟩ => ⟨u, hu.1, hP⟩) hscope
        fun j p hj hp => hup j p hj ?_
      have hrow : s.db.invitations.row j = s₀.db.invitations.row j := hpast.row j hj
      rwa [InvitationTable.parent, hrow] at hp

def removeSecond : Request := { call := .removeInvitation 1 (some 8) }

def secondRemoved : World :=
  ((execute plainConfig removeSecond).run (fun _ _ => false)
    (twoGuests.log (.called removeSecond.call))).2

end
end InvitationService

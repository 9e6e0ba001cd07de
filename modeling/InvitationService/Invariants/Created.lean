import InvitationService.Invariants.Capacity

open Relation (ReflTransGen)

namespace InvitationService

open Resumption

/-- Every invitation ever stored has been announced once, and no other invitation has. -/
def Announced (w : World) : Prop :=
  ∀ i, announced i w.db.outbox = if i < w.db.invitations.next then 1 else 0

/-- A reply that stores plus-ones: as many of those in its input as the invitation allows. -/
def Call.BringsPlusOnes (c : Call) (w : World) : Prop :=
  ∃ input locale r plan, c = .replyInvitation input locale ∧ w.row input.invitationId = some r ∧
    GuestWrite.planReply r input = .ok plan ∧ plan.allowedPlusOnes ≠ []

variable {cfg : Config} {c : Call} {a s t w v : World}

theorem Announced.of_db (h : Announced w) (hv : v.db = w.db) : Announced v := by
  intro i
  rw [hv]
  exact h i

theorem announced_none {i n m : Nat} (h : m = n) :
    announced i [] = if n ≤ i ∧ i < m then 1 else 0 := by
  rw [if_neg (by omega), announced_nil]

theorem Change.announced {t : InvitationTable} {o : List OutboxRow} (h : Change Kept cfg c a w t o)
    (hc : ¬ c.BringsPlusOnes a) (i : Nat) :
    announced i o = if w.db.invitations.next ≤ i ∧ i < t.next then 1 else 0 := by
  cases h with
  | same ho => rw [(ho i).2, if_neg (by omega)]
  | create _ ho =>
    rw [(ho i).2, InvitationTable.insert_next]
    exact if_congr (by omega) rfl rfl
  | @reply input _ r r' plan _ _ u _ _ hcall ha hsnap hr' hplan hins hu ho =>
    have hnone : plan.allowedPlusOnes = [] := by
      by_contra hne
      obtain ⟨y, hy, hcore⟩ := hsnap.arrival ha hr'
      refine hc ⟨input, _, y, plan, hcall, hy, ?_, hne⟩
      rw [← GuestWrite.planReply_core, hcore, GuestWrite.planReply_core, hplan]
    have hn := hins.next_eq
    rw [hnone, InvitationTable.patch_next] at hn
    have hnext : t.next = w.db.invitations.next := by
      rcases hu with rfl | ⟨token, payload, -, -, -, rfl⟩ <;> exact hn
    rw [(ho i).2, if_neg (by omega)]
  | plusOne _ _ _ _ _ _ _ ho =>
    rw [(ho i).2, InvitationTable.patch_next, InvitationTable.insert_next,
      InvitationTable.patch_next]
    exact if_congr (by omega) rfl rfl
  | publicRsvp _ _ _ ho => exact (ho i).2
  | deleteAll _ _ _ hrem => exact announced_none hrem.next_eq
  | stage _ _ _ hst => exact announced_none hst.next_eq
  | removeMany _ hrem => exact announced_none hrem.next_eq
  | _ => exact announced_none rfl

theorem Announced.action (hA : Action Kept cfg c a w v) (hc : ¬ c.BringsPlusOnes a)
    (h : Announced w) : Announced v := by
  cases hA with
  | step _ hch ho _ _ _ =>
    intro i
    have hle := hch.next_le
    rw [ho, announced_append, h i, hch.announced hc i]
    split <;> split <;> split <;> omega
  | project hp =>
    intro i
    rw [hp.outbox, hp.invitations]
    exact h i
  | approve _ _ _ _ => exact h
  | _ => exact h

/-- Unless a reply brings plus-ones, every invitation is announced in the step that stores it, once,
and nothing else is announced. -/
theorem creations_announced {h : List CallRecord} (hs : (service cfg).Serial .empty h w)
    (hreply : ∀ x ∈ h, ¬ x.call.call.BringsPlusOnes x.before) :
    Announced w ∧ ∀ q, ¬ q.call.BringsPlusOnes w → ∀ t u,
      Prog.Makes (ReflTransGen (service cfg).env) ((service cfg).exec q)
        ((service cfg).arrive q w) t u → Announced t ∧ Announced u := by
  have henv : ∀ s t, Announced s → World.Environment s t → Announced t := fun _ _ hs he =>
    hs.of_db (environment_db he)
  have hw : Announced w :=
    hs.stepwise (P := fun x => ¬ x.call.call.BringsPlusOnes x.before)
      (J := fun (q : Request) (t u : World) => ¬ q.call.BringsPlusOnes t ∧ Announced u) hreply
      (fun i => (if_neg (Nat.not_lt_zero i)).symm) henv service_guarantees
      (fun _ _ _ hi _ hq => ⟨hq, hi.of_db rfl⟩) (fun _ _ _ _ hJ he => ⟨hJ.1, henv _ _ hJ.2 he⟩)
      (fun q t _ _ hJ hA => ⟨hJ.1, hJ.2.action hA hJ.1⟩) fun _ _ _ hJ => hJ.2
  refine ⟨hw, fun q hq t u hmakes => ?_⟩
  obtain ⟨ht, hA⟩ := hmakes.sound (I := Announced) (service_guarantees q w) (hw.of_db rfl)
    (System.env_star henv) fun s t hs hA => hs.action hA hq
  exact ⟨ht, ht.action hA hq⟩

theorem creations_announced_plusOne :
    (trace plainConfig [invitationFor 1, addPlusOne] .empty).2.db.invitations.next = 2 ∧
      Announced (trace plainConfig [invitationFor 1, addPlusOne] .empty).2 := by
  refine ⟨by decide, (creations_announced (serial_trace [invitationFor 1, addPlusOne] .empty
    (by decide)) fun x hx => ?_).1⟩
  rintro ⟨input, locale, r, plan, hc, -⟩
  have hq := call_of_mem_trace hx
  simp only [List.mem_cons, List.not_mem_nil, or_false] at hq
  rcases hq with hq | hq <;> rw [hq] at hc <;> cases hc

/-- The plus-one named in an RSVP is never announced. -/
theorem not_creations_announced : ¬ ∀ w, Reachable plainConfig w → Announced w := by
  intro hall
  have h := hall _ ⟨_, serial_trace [invitationFor 1, replyWithPlusOne] .empty (by decide)⟩ 1
  rw [if_pos (by decide)] at h
  have hzero : announced 1
      (trace plainConfig [invitationFor 1, replyWithPlusOne] .empty).2.db.outbox = 0 := by decide
  rw [hzero] at h
  cases h

end InvitationService

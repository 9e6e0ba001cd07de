import InvitationService.Lifecycle.Action

namespace InvitationService

open Resumption

variable {R : World → World → Prop} {cfg : Config} {c : Call} {a s t u : World}
  {P : World → Prop}

def Known (R : World → World → Prop) (P : World → Prop) (s : World) : Prop :=
  ∀ t, R s t → Seen R P t

def Carries (R : World → World → Prop) (s u : World) : Prop := ∀ P, Known R P s → Known R P u

theorem Known.of_now (h : P s) : Known R P s := fun _ ht => ⟨s, h, ht⟩

theorem Known.of_always (h : ∀ v, P v) : Known R P s := .of_now (h s)

theorem Known.weaken {P' : World → Prop} (h : Known R P s) (hP : ∀ v, P v → P' v) :
    Known R P' s := fun t ht => (h t ht).imp fun v hv => ⟨hP v hv.1, hv.2⟩

theorem Stable.carries (hR : Stable R cfg c a) (hst : R s t) (hA : Action R cfg c a t u)
    (hk : Kept t u) : Carries R s u := by
  intro P hP v huv
  obtain ⟨p, hp, hpt⟩ := hP t hst
  exact ⟨p, hp, hR.trans (hR.absorb hpt hA hk) huv⟩

theorem Change.unchanged {t : InvitationTable} {w : World} (h : t = w.db.invitations) :
    Change R cfg c a w t [] := h ▸ .same fun _ => ⟨rfl, rfl⟩

theorem Hush.action (h : Hush t u) : Action R cfg c a t u :=
  .step h.1 (.unchanged (by rw [h.2])) (by rw [h.2]; simp) (by rw [h.2]) (by rw [h.2]) (by rw [h.2])

theorem Hush.kept (h : Hush t u) : Kept t u :=
  .of_side h.1 (by rw [h.2]) (fun _ => by simp only [World.row, h.2]) (by rw [h.2]) (by rw [h.2])
    (by rw [h.2])

section Within

variable (hR : Stable R cfg c a) {b : Query α} {K : α → World → Prop}

include hR in
theorem within_hush (hb : b.Moves Hush)
    (h : ∀ t, R s t → b.Ends (fun x u => Carries R s u → K x u) t) :
    (perform b).Within R (Action R cfg c a) K s :=
  within_perform_of_moves hb (fun _ _ => Hush.action) fun t hst =>
    (h t hst).mono fun _ _ hK hh => hK (hR.carries hst hh.action hh.kept)

include hR in
theorem within_find {i : Nat} {K : Option Invitation → World → Prop}
    (h : ∀ t, R s t → Carries R s t → K (t.row i) t) :
    (perform (Query.findInvitation i)).Within R (Action R cfg c a) K s :=
  within_hush hR Query.hush_findInvitation fun t hst => by simpa using h t hst

theorem within_act
    (h : ∀ t, R s t → b.Post (fun
      | .ok x, u => Action R cfg c a t u ∧ K x u
      | .error _, u => Hush t u) t) :
    (perform b).Within R (Action R cfg c a) K s :=
  within_perform fun t hst => (h t hst).mono fun r u hr => by
    cases r with
    | ok x => exact hr
    | error e => exact hr.action

theorem within_tx (hb : b.Moves Side)
    (h : ∀ t, R s t → b.Ends (fun x u => Side t u → Action R cfg c a t u ∧ K x u) t) :
    (Query.transaction b).Within R (Action R cfg c a) K s :=
  within_transaction hb (fun _ _ hu => Hush.action ⟨hu.rollback, rfl⟩) h

theorem within_quiet {A : World → World → Prop} (hA : ∀ t u, u.db = t.db → A t u)
    (hb : b.Moves Hush) (h : ∀ t, R s t → b.Ends (fun x u => u.db = t.db → K x u) t) :
    (perform b).Within R A K s :=
  within_perform_of_moves hb (fun _ _ hh => hA _ _ hh.2) fun t hst =>
    (h t hst).mono fun _ _ hK hh => hK hh.2

theorem Query.post_transaction {q : Query α} {w : World} {K : α → World → Prop} (h : q.Ends K w) :
    (Query.transaction q).Post (fun
      | .ok a, u => K a u
      | .error _, u => u.db = w.db) w :=
  (Resumption.post_transaction h).mono fun r u hr => by
    cases r with
    | ok a => exact hr
    | error e =>
      obtain ⟨t, rfl⟩ := hr
      rfl

theorem within_run {A : World → World → Prop} {b : Query α} {K : α → World → Prop}
    (hK : ∀ x t, K x t)
    (hA : ∀ t fails, R s t → A t ((Query.transaction b).run (fun _ => fails) t).2) :
    (Query.transaction b).Within R A K s :=
  guarantees_single fun fails t hst => by
    refine ⟨?_, ?_⟩
    · have h := hA t fails hst
      unfold Query.transaction Resumption.transaction at h
      rwa [run_single] at h
    · split
      · exact hK _ _
      · trivial

end Within
end InvitationService

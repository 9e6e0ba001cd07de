import InvitationService.Invariants.Status

open Relation (ReflTransGen)

namespace InvitationService

open Resumption

variable {cfg : Config} {c : Call} {a w v : World}

def ApprovedInv (w : World) : Prop := ∀ i r, w.row i = some r → r.status = .approved →
  ∃ actorId, .approved i actorId ∈ w.journal

theorem not_approved_of_born {r : Invitation} (h : Born cfg c w r) : r.status ≠ .approved := by
  cases h with
  | created hc =>
    cases c with
    | createInvitation input user =>
      obtain ⟨e, settings, -, -, rfl⟩ := hc
      simp [AdminWrite.createdInvitation]
    | importInvitations e key uploadType sheet user =>
      obtain ⟨firstName, lastName, n, rfl⟩ := hc
      simp [AdminWrite.importedInvitation]
    | _ => exact hc.elim
  | @plusOne _ _ _ _ _ autoApprove _ => cases autoApprove <;> simp [GuestWrite.plusOneChild]
  | replyPlusOne _ => simp [GuestWrite.replyPlusOne]
  | publicInvitee _ => simp [GuestWrite.publicInvitee]
  | publicPlusOne _ => simp [GuestWrite.publicPlusOne]

theorem Write.not_approved {i : Nat} {o : Option Invitation} {r : Invitation}
    (h : Write Kept cfg c a w i o (some r)) (hr : r.status = .approved) :
    ∃ x, o = some x ∧ x.status = .approved := by
  cases h with
  | insert _ hb => exact (not_approved_of_born hb hr).elim
  | modify hd _ => exact ⟨_, rfl, (hd.apply_status _ _).symm.trans hr⟩
  | @reply input _ r' x plan now _ _ _ _ _ hplan =>
    have hst : plan.resultingStatus = .approved := hr
    rw [(GuestWrite.planReply_spec hplan).status] at hst
    cases hi : input.choice with
    | no => simp [hi] at hst
    | maybe => simp [hi] at hst
    | yes => by_cases hs : r'.status = .approvalStaged <;> simp [hi, hs] at hst
  | attach _ _ _ _ => exact ⟨_, rfl, hr⟩
  | reject _ _ _ => cases hr
  | send _ _ _ _ _ _ => exact ⟨_, rfl, hr⟩
  | @stage _ staged _ r' x _ _ _ _ =>
    have hst : AdminWrite.stagedStatus staged r' = .approved := hr
    unfold AdminWrite.stagedStatus at hst
    split at hst
    · cases hst
    · split at hst <;> cases hst

theorem ApprovedInv.action (hA : Action Kept cfg c a w v) (hw : ApprovedInv w) :
    ApprovedInv v := by
  obtain ⟨l, hl, -⟩ := hA.journal
  have hmono : ∀ {x}, x ∈ w.journal → x ∈ v.journal := fun hx => by
    rw [hl]; exact List.mem_append_right _ hx
  refine hA.rows (Q := fun i r => r.status = .approved → ∃ actorId, .approved i actorId ∈ v.journal)
    (fun i r hr hs => (hw i r hr hs).imp fun _ => hmono) (fun i o r hwr ho hs => ?_)
    fun i r x actorId now _ _ _ hlog _ _ => ⟨actorId, hlog⟩
  obtain ⟨x, hx, hxs⟩ := hwr.not_approved hs
  exact ho x hx hxs

def confirmingStep : World × World :=
  (trail plainConfig seatedCall (trace plainConfig publicResendRun .empty).2).get
    ⟨3, by decide⟩

end InvitationService

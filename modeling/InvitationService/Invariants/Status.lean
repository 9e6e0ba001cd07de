import InvitationService.Lifecycle.Runs

open Relation (ReflTransGen)

namespace InvitationService

open Resumption

def RsvpChoice.Final (o : Option RsvpChoice) : Prop := o = some .yes ∨ o = some .no

structure StatusOk (r : Invitation) : Prop where
  pending : r.status = .pending → r.rsvpChoice = none ∨ r.rsvpChoice = some .maybe
  accepted : r.status = .accepted → r.rsvpChoice = some .yes
  approved : r.status = .approved → r.rsvpChoice = some .yes
  declined : r.status = .declined → r.rsvpChoice = some .no
  approvalStaged : r.status = .approvalStaged → r.rsvpChoice ≠ some .no
  canceled : r.status ≠ .canceled

namespace StatusOk

variable {r x : Invitation} {cfg : Config} {c : Call} {a w : World}

theorem congr (h : StatusOk x) (hs : r.status = x.status) (hr : r.rsvpChoice = x.rsvpChoice) :
    StatusOk r := by
  obtain ⟨h₁, h₂, h₃, h₄, h₅, h₆⟩ := h
  constructor <;> rw [hs] <;> try rw [hr]
  all_goals assumption

theorem of_yes (hy : r.rsvpChoice = some .yes) (hs : r.status = .accepted ∨ r.status = .approved ∨
    r.status = .approvalStaged) : StatusOk r := by
  constructor <;> rcases hs with hs | hs | hs <;> simp [hs, hy]

theorem born (h : Born cfg c w r) : StatusOk r := by
  cases h with
  | created hc =>
    cases c with
    | createInvitation input user =>
      obtain ⟨e, settings, -, -, rfl⟩ := hc
      constructor <;> simp [AdminWrite.createdInvitation]
    | importInvitations e key uploadType sheet user =>
      obtain ⟨firstName, lastName, n, rfl⟩ := hc
      constructor <;> simp [AdminWrite.importedInvitation]
    | _ => exact hc.elim
  | replyPlusOne _ => exact of_yes rfl (.inl rfl)
  | @plusOne _ _ _ _ _ autoApprove _ =>
    cases autoApprove with
    | true => exact of_yes rfl (.inl rfl)
    | false => constructor <;> simp [GuestWrite.plusOneChild]
  | publicInvitee _ => exact of_yes rfl (.inl rfl)
  | publicPlusOne _ => exact of_yes rfl (.inl rfl)

theorem reply {input : RSVPInput} {plan : GuestWrite.ReplyPlan} {now n : Nat}
    (h : GuestWrite.PlanSpec r input plan) :
    StatusOk ((GuestWrite.replyUpdate cfg r plan now input.replyInput).apply n x) := by
  have hs : ((GuestWrite.replyUpdate cfg r plan now input.replyInput).apply n x).status =
    plan.resultingStatus := rfl
  have hc : ((GuestWrite.replyUpdate cfg r plan now input.replyInput).apply n x).rsvpChoice =
    some input.choice := congrArg some h.newChoice
  rw [h.status] at hs
  cases hi : input.choice with
  | no => rw [hi] at hs hc; constructor <;> simp [hs, hc]
  | maybe => rw [hi] at hs hc; constructor <;> simp [hs, hc]
  | yes =>
    rw [hi] at hs hc
    refine of_yes hc ?_
    by_cases hst : r.status = .approvalStaged <;> simp [hs, hst]

theorem stage {staged : Bool} {n : Nat} (h : StatusOk x) (hc : x.core = r.core)
    (hg : if staged then AdminWrite.canStage r = true else AdminWrite.canUnstage r = true) :
    StatusOk (InvitationUpdate.apply
      { status := some (AdminWrite.stagedStatus staged r) } n x) := by
  have hs := core_status hc
  have hr := core_rsvpChoice hc
  cases staged with
  | true =>
    have hno : x.rsvpChoice ≠ some .no := by
      simp only [if_true, AdminWrite.canStage, Bool.or_eq_true, decide_eq_true_eq] at hg
      rcases hg with hg | hg
      · rcases h.pending (hs.trans hg) with e | e <;> simp [e]
      · simp [h.accepted (hs.trans hg)]
    constructor <;> simp [InvitationUpdate.apply, AdminWrite.stagedStatus, hno]
  | false =>
    have hno : x.rsvpChoice ≠ some .no :=
      h.approvalStaged (hs.trans (by simpa [AdminWrite.canUnstage] using hg))
    rw [hr] at hno
    by_cases hy : r.rsvpChoice = some .yes
    · exact of_yes (hr.trans hy) (.inl (by
        simp [InvitationUpdate.apply, AdminWrite.stagedStatus, hy]))
    · have hmaybe : r.rsvpChoice = none ∨ r.rsvpChoice = some .maybe := by
        cases hc : r.rsvpChoice with
        | none => exact .inl rfl
        | some o => cases o <;> simp_all
      constructor <;> simp [InvitationUpdate.apply, AdminWrite.stagedStatus, hy, hr, hmaybe]

theorem write {i : Nat} {o : Option Invitation} (h : Write Kept cfg c a w i o (some r))
    (ho : ∀ x, o = some x → StatusOk x) : StatusOk r := by
  cases h with
  | insert _ hb => exact (born hb).congr rfl rfl
  | modify hd _ => exact (ho _ rfl).congr (hd.apply_status _ _) (hd.apply_rsvpChoice _ _)
  | reply _ _ _ _ _ hplan => exact reply (GuestWrite.planReply_spec hplan)
  | attach _ _ _ _ => exact (ho _ rfl).congr rfl rfl
  | reject _ _ _ => constructor <;> simp [InvitationUpdate.apply]
  | send _ _ _ _ _ _ => exact (ho _ rfl).congr rfl rfl
  | stage _ hr hx hg => exact stage (ho _ rfl) (hr.core_eq hx) hg

end StatusOk

variable {cfg : Config} {c : Call} {a w v : World}

def StatusInv (w : World) : Prop := ∀ i r, w.row i = some r → StatusOk r

theorem StatusInv.action (hA : Action Kept cfg c a w v) (hw : StatusInv w) : StatusInv v :=
  hA.rows (Q := fun _ => StatusOk) hw (fun _ _ _ hwr ho => StatusOk.write hwr ho)
    fun _ _ _ _ _ hsnap hy _ _ hx =>
      .of_yes ((core_rsvpChoice (hsnap.core_eq hx)).trans hy) (.inr (.inl rfl))

theorem StatusInv.run {s₀ s : World} {h : List CallRecord}
    (hs : (service cfg).Serial s₀ h s) (h₀ : StatusInv s₀) : StatusInv s :=
  Serial.invariant_of_actions hs h₀
    (fun s t hi he i r hr => hi i r (by rwa [World.row, environment_db he] at hr))
    (fun _ _ hi => hi) fun _ _ _ _ hi hA => hi.action hA

def Settled (i : Nat) (choice : Option RsvpChoice) (w : World) : Prop :=
  i < w.db.invitations.next ∧ ∀ r, w.row i = some r → r.rsvpChoice = choice

theorem Settled.action {i : Nat} {choice : Option RsvpChoice} (hf : RsvpChoice.Final choice)
    (hA : Action Kept cfg c a w v) (hw : Settled i choice w) : Settled i choice v := by
  refine ⟨hw.1.trans_le hA.next_le, fun r => ?_⟩
  suffices h : ∀ j r, v.row j = some r → j = i → r.rsvpChoice = choice from fun hr => h i r hr rfl
  refine hA.rows (fun j r hr hj => ?_) (fun j o r hwr ho hj => ?_)
    fun j r x actorId now hsnap _ _ _ hx hj => ?_
  · subst hj; exact hw.2 r hr
  · subst hj
    cases hwr with
    | insert hn _ => exact absurd hw.1 (by omega)
    | modify hd _ => exact (hd.apply_rsvpChoice _ _).trans (ho _ rfl rfl)
    | reply _ _ _ hsnap hx hplan =>
      -- the guard of `reply` leaves only the undecided through
      have hu := (GuestWrite.planReply_spec hplan).undecided
      have hr := (core_rsvpChoice (hsnap.core_eq hx)).symm.trans (hw.2 _ hx)
      rw [hr] at hu
      rcases hf with rfl | rfl <;> simp at hu
    | attach _ _ _ _ => exact (ho _ rfl rfl :)
    | reject _ _ _ => exact (ho _ rfl rfl :)
    | send _ _ _ _ _ _ => exact (ho _ rfl rfl :)
    | stage _ _ _ _ => exact (ho _ rfl rfl :)
  · subst hj; exact hw.2 x hx

theorem Settled.run {i : Nat} {choice : Option RsvpChoice} (hf : RsvpChoice.Final choice)
    {s₀ s : World} {h : List CallRecord}
    (hs : (service cfg).Serial s₀ h s) (h₀ : Settled i choice s₀) : Settled i choice s :=
  Serial.invariant_of_actions hs h₀
    (fun s t hi he => by rwa [Settled, World.row, environment_db he])
    (fun _ _ hi => hi) fun _ _ _ _ hi hA => hi.action hf hA

structure Staged (ids : List Nat) (staged : Bool) (t u : InvitationTable) : Prop where
  guard : ∀ r ∈ t.select (·.id ∈ ids),
    if staged then AdminWrite.canStage r = true else AdminWrite.canUnstage r = true
  table : ∃ now, StageAll staged now t (t.select (·.id ∈ ids)) u

namespace Staged

variable {ids : List Nat} {staged : Bool} {t u : InvitationTable} {i : Nat} {r : Invitation}

theorem row_of_mem (h : Staged ids staged t u) (hi : i ∈ ids) (hr : t.row i = some r) :
    (if staged then AdminWrite.canStage r = true else AdminWrite.canUnstage r = true) ∧
      ∃ now, u.row i = some (InvitationUpdate.apply
        { status := some (AdminWrite.stagedStatus staged r) } now r) := by
  obtain ⟨now, hs⟩ := h.table
  obtain rfl := t.id_eq hr
  have hm : r ∈ t.select (·.id ∈ ids) := InvitationTable.mem_select.2 ⟨hr, by simpa using hi⟩
  have hn := t.select_ids (·.id ∈ ids) ▸ t.nodup_ids (·.id ∈ ids)
  exact ⟨h.guard r hm, now, by rw [hs.row_of_mem hn hm, hr]; rfl⟩

theorem row_of_notMem (h : Staged ids staged t u) (hi : i ∉ ids) : u.row i = t.row i := by
  obtain ⟨now, hs⟩ := h.table
  refine hs.row_of_notMem fun hm => ?_
  obtain ⟨r, hr, rfl⟩ := List.mem_map.1 hm
  exact hi (by simpa using (InvitationTable.mem_select.1 hr).2)

theorem row_of_none (h : Staged ids staged t u) (hi : t.row i = none) : u.row i = none := by
  obtain ⟨now, hs⟩ := h.table
  refine (hs.row_of_notMem fun hm => ?_).trans hi
  obtain ⟨r, hr, rfl⟩ := List.mem_map.1 hm
  rw [(InvitationTable.mem_select.1 hr).1] at hi
  cases hi

theorem restore {v : InvitationTable} (ht : ∀ i r, t.row i = some r → StatusOk r)
    (h : Staged ids true t u) (k : Staged ids false u v) (i : Nat) :
    (v.row i).map Invitation.status = (t.row i).map Invitation.status := by
  by_cases hi : i ∈ ids
  · cases hr : t.row i with
    | none => rw [k.row_of_none (h.row_of_none hr)]
    | some r =>
      obtain ⟨hg, n, hu⟩ := h.row_of_mem hi hr
      obtain ⟨-, m, hv⟩ := k.row_of_mem hi hu
      have hok := ht i r hr
      have hst : r.status = .pending ∨ r.status = .accepted := by
        simpa [AdminWrite.canStage] using hg
      rw [hv]
      rcases hst with hst | hst
      · rcases hok.pending hst with hc | hc <;>
          simp [InvitationUpdate.apply, AdminWrite.stagedStatus, hst, hc]
      · simp [InvitationUpdate.apply, AdminWrite.stagedStatus, hst, hok.accepted hst]
  · rw [k.row_of_notMem hi, h.row_of_notMem hi]

end Staged

theorem bulkStage_within {ids : List Nat} {staged : Bool} {e : Option EventId} :
    (AdminWrite.bulkStage ids staged e).Within (fun s t => t.db = s.db) (fun _ _ => True)
      (fun _ v => Staged ids staged w.db.invitations v.db.invitations) w := by
  unfold AdminWrite.bulkStage
  simp only [liftM_eq]
  refine Prog.Within.bind (within_perform_of_moves AdminWrite.hush_readStaged (fun _ _ _ => trivial)
    fun t ht => ?_)
  refine AdminWrite.ends_readStaged fun hg hside => ?_
  refine within_transaction AdminWrite.moves_stageAll (fun _ _ _ => trivial) fun u hu =>
    AdminWrite.ends_stageAll fun v _ hv _ => ⟨trivial, ?_, u.now, ?_⟩
  · rwa [← ht]
  · rw [hu, hside.2] at hv
    rwa [← ht]

theorem staged_of_exec {ids : List Nat} {staged : Bool} {e : Option EventId} {q : Request}
    {r : Except Exception Unit} {s : World} (hq : q.call = .bulkStageInvitations ids staged e)
    (hr : r = .ok ()) (h : Prog.Exec (ReflTransGen (service cfg).env) ((service cfg).exec q)
      ((service cfg).arrive q s) r w) :
    Staged ids staged s.db.invitations w.db.invitations := by
  subst hr
  obtain ⟨c, ctx⟩ := q
  obtain rfl := hq
  have hb : (Resolver.bulkStageInvitations ids staged e).Within (fun s t => t.db = s.db)
      (fun _ _ => True) (fun _ v => Staged ids staged s.db.invitations v.db.invitations)
      ((service cfg).arrive ⟨.bulkStageInvitations ids staged e, ctx⟩ s) := by
    unfold Resolver.bulkStageInvitations
    cases Resolver.requireIds ids with
    | error e => trivial
    | ok _ => exact bulkStage_within (w := (service cfg).arrive _ s)
  exact h.ends hb fun _ _ => environments_db

/-- In every reachable state the status of an invitation goes with its RSVP; a yes or a no is
final; and unstaging undoes staging. -/
theorem status_follows_rsvp {w : World} (hw : Reachable cfg w) :
    StatusInv w ∧
    (∀ i r, w.row i = some r → RsvpChoice.Final r.rsvpChoice →
      ∀ h v, (service cfg).Serial w h v → ∀ r', v.row i = some r' →
        r'.rsvpChoice = r.rsvpChoice) ∧
    (∀ ids e e' x y v, (service cfg).Serial w [x, y] v →
      x.call.call = .bulkStageInvitations ids true e → x.outcome = .ok () →
      y.call.call = .bulkStageInvitations ids false e' → y.outcome = .ok () →
      ∀ i, (v.row i).map Invitation.status = (w.row i).map Invitation.status) := by
  obtain ⟨h, hs⟩ := hw
  have hinv : StatusInv w := StatusInv.run hs fun i r hr => by cases hr
  refine ⟨hinv, fun i r hr hf h v hv => ?_,
    fun ids e e' x y v hv hx hxo hy hyo => ?_⟩
  · refine (Settled.run hf hv ⟨w.db.invitations.id_lt hr, fun r' hr' => ?_⟩).2
    rw [hr] at hr'
    cases hr'
    rfl
  · obtain ⟨hv₁, -, v₂, hv₂, hv⟩ := System.Serial.last (h := [x]) hv
    obtain ⟨h₀, -, v₁, hv₁, hvy⟩ := System.Serial.last (h := []) hv₁
    have h₁ := staged_of_exec hx hxo hv₁
    have h₂ := staged_of_exec hy hyo hv₂
    rw [environments_db h₀.nil] at h₁
    rw [environments_db hvy] at h₂
    simpa only [World.row, environments_db hv] using h₁.restore hinv h₂

def acceptedRun : List Request :=
  [⟨.createInvitation
      { eventId := some 7, maxInvitees := some 1, firstName := "A", lastName := "B" } 5,
      { tenantId := some 1 }⟩,
    ⟨.replyInvitation { invitationId := 0, choice := .yes, replyInput := some {
      firstName := "A", lastName := "B"
      phoneNumbers := [{ number := "1", type := .mobile, countryCode := "49" }] } } "de-DE",
      { tenantId := some 1 }⟩]

def stagingRun : List Request :=
  [⟨.bulkStageInvitations [0] true (some 7), {}⟩, ⟨.bulkStageInvitations [0] false (some 7), {}⟩]

theorem status_follows_rsvp_accepted :
    ((trace plainConfig stagingRun (trace plainConfig acceptedRun .empty).2).2.row 0).map
        Invitation.status =
      ((trace plainConfig acceptedRun .empty).2.row 0).map Invitation.status :=
  (status_follows_rsvp ⟨_, serial_trace acceptedRun .empty (by decide)⟩).2.2 [0] (some 7) (some 7)
    _ _ _ (serial_trace stagingRun _ (by decide)) rfl (by decide) rfl (by decide) 0

end InvitationService

import InvitationService.Concurrency.Steps
import InvitationService.Lib.Optimistic

namespace InvitationService.ConcurrentDecision

open Resumption Query AdminWrite InvitationTable
open Machine (Step)

/-! Approvals, rejections and staging of one invitation by several administrators. -/

inductive Decision
  | approve (input : ApproveInvitationDTO)
  | stage (ids : List Nat) (staged : Bool) (activeEventId : Option EventId)

inductive Kind
  | approve (approve : Bool)
  | stage (staged : Bool)
  deriving DecidableEq

def Decision.kind : Decision → Kind
  | .approve input => .approve input.approve
  | .stage _ staged _ => .stage staged

structure Overwrite where
  kind : Kind
  old : Option InvitationStatus
  deriving DecidableEq

/-- The statuses that each decision may overwrite. -/
def Overwrite.Legal (o : Overwrite) : Prop :=
  match o.kind with
  | .approve true => o.old ≠ some .approved
  | .approve false => o.old ≠ some .rejected
  | .stage true => o.old = some .pending ∨ o.old = some .accepted
  | .stage false => o.old = some .approvalStaged

/-- A decision is in order directly after another: the status that the other has left is one that
it may overwrite. -/
def Kind.InOrder : Kind → Kind → Prop
  | .approve yes, last => last ≠ .approve yes
  | .stage staged, last => last = .stage (!staged)

instance : DecidableRel Kind.InOrder
  | .approve yes, last => inferInstanceAs (Decidable (last ≠ .approve yes))
  | .stage staged, last => inferInstanceAs (Decidable (last = .stage (!staged)))

def Kind.Leaves : Kind → InvitationStatus → Prop
  | .approve yes, st => st = if yes then .approved else .rejected
  | .stage true, st => st = .approvalStaged
  | .stage false, st => st = .accepted ∨ st = .pending

theorem Kind.Leaves.legal_iff {k last : Kind} {st : InvitationStatus} (h : last.Leaves st) :
    Overwrite.Legal ⟨k, some st⟩ ↔ k.InOrder last := by
  rcases k with (_ | _) | (_ | _) <;> rcases last with (_ | _) | (_ | _) <;>
    simp only [Kind.Leaves] at h <;> (try rcases h with rfl | rfl) <;>
      simp [Overwrite.Legal, Kind.InOrder, *]

abbrev statusOf (i : Nat) (w : World) : Option InvitationStatus := fieldOf (·.status) i w

def readApproval (input : ApproveInvitationDTO) : Query Invitation := do
  let invitation ← ensureExists input.id
  approveGuard input invitation
  return invitation

def writeDecision (input : ApproveInvitationDTO) : Query Invitation :=
  if input.approve then writeApproval input else writeRejection input

def stageAll (staged : Bool) (invitations : List Invitation) : Query Unit :=
  invitations.forM fun invitation => do
    let _ ← updateInvitation invitation.id { status := some (stagedStatus staged invitation) }

def read : Decision → World → Option (List Invitation)
  | .approve input, w =>
    match (readApproval input).run (fun _ => false) w with
    | (.ok r, _) => some [r]
    | (.error _, _) => none
  | .stage ids staged e, w =>
    match (readStaged ids staged e).run (fun _ => false) w with
    | (.ok rs, _) => some rs
    | (.error _, _) => none

variable (i : Nat)

/-- What a call writes, and what it overwrites of the status of `i`. -/
def write (call : Decision) (seen : List Invitation) (fails : Nat → Bool) (w : World) :
    Option Overwrite × World :=
  let overwrite := if i ∈ seen.map (·.id) then some ⟨call.kind, statusOf i w⟩ else none
  match call with
  | .approve input =>
    match (writeDecision input).run fails w with
    | (.ok _, w') => (overwrite, w')
    | (.error _, w') => (none, w')
  | .stage _ staged _ =>
    match (Query.transaction (stageAll staged seen)).run (fun _ => fails) w with
    | (.ok _, w') => (overwrite, w')
    | (.error _, w') => (none, w')

/-- Calls of `approve`, alone or from `bulkApprove`, and of `bulkStage`.  What happens besides,
the grants and the confirmations of `approve` included, leaves the status of `i` alone. -/
def decisions : Optimistic World Decision (List Invitation) (Nat → Bool) Overwrite where
  read := read
  write := write i
  quiet s t := statusOf i t = statusOf i s

instance : DecidableRel (decisions i).quiet := fun s t =>
  inferInstanceAs (Decidable (statusOf i t = statusOf i s))

abbrev DecisionState := Optimistic.State World Decision (List Invitation) Overwrite

abbrev DecisionStep := Step DecisionState (Optimistic.Move World Decision (Nat → Bool))

variable {i : Nat} {w w' : World} {call : Decision} {seen : List Invitation}

structure Checked (call : Decision) (seen : List Invitation) : Prop where
  legal : ∀ r ∈ seen, Overwrite.Legal ⟨call.kind, some r.status⟩
  nodup : (seen.map (·.id)).Nodup
  single : ∀ input, call = .approve input → ∃ r, seen = [r] ∧ r.id = input.id

theorem checked_approve {input : ApproveInvitationDTO} {r : Invitation} (hid : r.id = input.id)
    (hyes : input.approve = true → r.status ≠ .approved)
    (hno : input.approve = false → r.status ≠ .rejected) : Checked (.approve input) [r] where
  legal := by
    cases ha : input.approve with
    | true => simpa [Decision.kind, Overwrite.Legal, ha] using hyes ha
    | false => simpa [Decision.kind, Overwrite.Legal, ha] using hno ha
  nodup := by simp
  single _ h := by
    cases h
    exact ⟨r, rfl, hid⟩

theorem checked_stage {ids : List Nat} {staged : Bool} {e : Option EventId} {t : InvitationTable}
    (hall : ∀ r ∈ t.select (·.id ∈ ids),
      if staged then canStage r = true else canUnstage r = true) :
    Checked (.stage ids staged e) (t.select (·.id ∈ ids)) where
  legal r hr := by
    have hr := hall r hr
    cases staged with
    | true => simpa [Decision.kind, Overwrite.Legal, canStage] using hr
    | false => simpa [Decision.kind, Overwrite.Legal, canUnstage] using hr
  nodup := select_ids _ _ ▸ nodup_ids _ _
  single := nofun

theorem read_spec (h : read call w = some seen) :
    Checked call seen ∧ ∀ r ∈ seen, w.row r.id = some r := by
  cases call with
  | approve input =>
    have hends : (readApproval input).Ends (fun r _ =>
        Checked (.approve input) [r] ∧ w.row r.id = some r) w := by
      simp only [readApproval, Prog.ends_bind, ends_ensureExists]
      intro r hr
      have hid := w.db.invitations.id_eq hr
      exact ends_approveGuard fun _ hyes hno =>
        ⟨checked_approve hid (fun h => (hyes h).2) hno, hid.symm ▸ hr⟩
    have hrun := Prog.Post.run hends fun _ => false
    simp only [read] at h
    generalize (readApproval input).run (fun _ => false) w = x at h hrun
    obtain ⟨result, u⟩ := x
    cases result with
    | error e => cases h
    | ok r =>
      cases h
      exact ⟨hrun.1, by simpa using hrun.2⟩
  | stage ids staged e =>
    have hends : (readStaged ids staged e).Ends (fun rs _ =>
        Checked (.stage ids staged e) rs ∧ ∀ r ∈ rs, w.row r.id = some r) w :=
      ends_readStaged fun hall => ⟨checked_stage hall, fun r hr => (mem_select.1 hr).1⟩
    have hrun := Prog.Post.run hends fun _ => false
    simp only [read] at h
    generalize (readStaged ids staged e).run (fun _ => false) w = x at h hrun
    obtain ⟨result, u⟩ := x
    cases result with
    | error e => cases h
    | ok rs =>
      cases h
      exact hrun

theorem leaves_stagedStatus {staged : Bool} {r : Invitation} :
    (Kind.stage staged).Leaves (stagedStatus staged r) := by
  rw [stagedStatus]
  cases staged with
  | true => rfl
  | false =>
    simp only [Bool.false_eq_true, if_false, Kind.Leaves]
    split <;> simp

theorem post_writeDecision {input : ApproveInvitationDTO} : (writeDecision input).Post (fun
    | .ok _, u => (i ≠ input.id → statusOf i u = statusOf i w) ∧
        (i = input.id → ∃ st, statusOf i u = some st ∧ (Kind.approve input.approve).Leaves st)
    | .error _, u => statusOf i u = statusOf i w) w := by
  rw [writeDecision]
  cases ha : input.approve with
  | true =>
    simp only [if_true, writeApproval, Prog.post_bind, post_clock, post_updateInvitation, post_note]
    refine ⟨trivial, fun r hr => ⟨fun hi => fieldOf_of_patch hi rfl, ?_⟩, fun _ => trivial⟩
    rintro rfl
    exact ⟨_, fieldOf_patch_self hr rfl, rfl⟩
  | false =>
    simp only [Bool.false_eq_true, if_false, writeRejection, Prog.post_bind, post_clock,
      post_updateInvitation, post_note]
    refine ⟨trivial, fun r hr => ⟨fun hi => fieldOf_of_patch hi rfl, ?_⟩, fun _ => trivial⟩
    rintro rfl
    exact ⟨_, fieldOf_patch_self hr rfl, rfl⟩

theorem write_spec {fails : Nat → Bool} {e : Option Overwrite} (hc : Checked call seen)
    (h : write i call seen fails w = (e, w')) :
    (e = none ∧ statusOf i w' = statusOf i w) ∨
      e = some ⟨call.kind, statusOf i w⟩ ∧ i ∈ seen.map (·.id) ∧
        ∃ st, statusOf i w' = some st ∧ call.kind.Leaves st := by
  cases call with
  | approve input =>
    obtain ⟨r, rfl, hid⟩ := hc.single input rfl
    have hrun := (show (writeDecision input).Post _ w from post_writeDecision (i := i)).run fails
    simp only [write] at h
    generalize (writeDecision input).run fails w = x at h hrun
    obtain ⟨result, u⟩ := x
    cases result with
    | error e =>
      cases h
      exact .inl ⟨rfl, hrun⟩
    | ok a =>
      cases h
      by_cases hi : i = r.id
      · exact .inr ⟨by simp [hi, Decision.kind], by simp [hi], hrun.2 (hi.trans hid)⟩
      · exact .inl ⟨by simp [hi], hrun.1 fun h => hi (h.trans hid.symm)⟩
  | stage ids staged e =>
    have hends : (stageAll staged seen).Ends (fun _ u =>
        (i ∉ seen.map (·.id) → statusOf i u = statusOf i w) ∧
          (i ∈ seen.map (·.id) → ∃ st, statusOf i u = some st ∧ (Kind.stage staged).Leaves st)) w :=
      ends_stageAll fun t hrs ht => by
        refine ⟨fun hi => congrArg (Option.map _) (ht.row_of_notMem hi), fun hi => ?_⟩
        obtain ⟨r, hr, rfl⟩ := List.mem_map.1 hi
        obtain ⟨r', hr'⟩ := Option.isSome_iff_exists.1 (hrs r hr)
        have hrow : t.row r.id = some _ := (ht.row_of_mem hc.nodup hr).trans (congrArg _ hr')
        exact ⟨_, congrArg (Option.map _) hrow, leaves_stagedStatus⟩
    have hrun := (Query.post_transaction hends).run fun _ => fails
    simp only [write] at h
    generalize (Query.transaction (stageAll staged seen)).run (fun _ => fails) w = x at h hrun
    obtain ⟨result, u⟩ := x
    cases result with
    | error e =>
      cases h
      exact .inl ⟨rfl, fieldOf_of_db hrun⟩
    | ok a =>
      cases h
      by_cases hi : i ∈ seen.map (·.id)
      · exact .inr ⟨by rw [if_pos hi], hi, hrun.2 hi⟩
      · exact .inl ⟨by rw [if_neg hi], hrun.1 hi⟩

/-! The code of `approve` and `bulkStage` makes no other steps. -/

def Follows (i : Nat) (call : Decision) (t u : World) : Prop :=
  statusOf i u = statusOf i t ∨ ∃ seen fails, Checked call seen ∧
    (∀ r ∈ seen, Snapshot Grows r.id r t) ∧ u = (write i call seen fails t).2

theorem follows_of_db : ∀ t u, u.db = t.db → Follows i call t u := fun _ _ h =>
    .inl (fieldOf_of_db h)

section

variable {cfg : Config} {ctx : Context} {input : ApproveInvitationDTO} {r : Invitation}
  {s t u : World}

theorem statusOf_job {a : World} {job : Job} (hA : Action Grows cfg (.job job) a t u)
    (hi : i < a.db.invitations.next) : statusOf i u = statusOf i t := by
  cases hA with
  | step _ hch _ _ _ _ =>
    generalize ht : u.db.invitations = v at hch
    cases hch with
    | same _ => rw [statusOf, statusOf, fieldOf, fieldOf, World.row, World.row, ht]
    | send _ _ _ _ _ _ => exact fieldOf_patch (fun _ _ => rfl) ht
    | create hc _ => exact hc.elim
    | reject hc _ _ => exact hc.elim
    | remove hc => exact hc.elim
    | reply hc _ _ _ _ _ _ _ | plusOne _ hc _ _ _ _ _ _ | details hc _ | deleteOne hc _ _
    | deleteAll hc _ _ _ | publicRsvp hc _ _ _ | attach hc _ _ _ _ | limit hc _ _ | link hc
    | stage hc _ _ _ | removeMany hc _ => cases hc
  | project hp => exact hp.projects.elim
  | approve _ _ _ hauth =>
    obtain ⟨v, hauth, -⟩ := hauth
    rcases hauth with hauth | hauth | ⟨_, _, _, hauth, -⟩
    · exact hauth.elim
    · exact fieldOf_of_patch (Nat.ne_of_lt (Nat.lt_of_lt_of_le hi hauth)) rfl
    · cases hauth
  | confirm _ _ _ _ _ _ _ | resent _ | reminded _ | ticket _ _ => rfl

theorem within_confirmApproval {settings : Option EventSettings} :
    (confirmApproval cfg ctx input r settings).Within Grows (Follows i call) (fun _ _ => True) s :=
  have hconf : Conforms Grows cfg (.job (.generateTicket input.id 0 input.seatId 0 none))
      (World.empty.setInvitations { InvitationTable.empty with next := i + 1, id_lt := nofun })
      (confirmApproval cfg ctx input r settings) s :=
    confirmApproval_conforms stable_grows (fun _ => ⟨rfl, rfl⟩) (.inl ⟨_, _, _, _, rfl⟩)
  Prog.Guarantees.mono hconf (fun _ _ h => h)
    (fun _ _ hA => .inl (statusOf_job hA (Nat.lt_succ_self i))) fun _ _ h => h

theorem within_writeDecision {K : Invitation → World → Prop} (hK : ∀ x t, K x t)
    (hc : Checked (.approve input) [r]) (hr : Snapshot Grows r.id r s) :
    (perform (writeDecision input)).Within Grows (Follows i (.approve input)) K s :=
  guarantees_single fun fails t hst => by
    refine ⟨.inr ⟨[r], fails, hc, ?_, ?_⟩, ?_⟩
    · obtain ⟨v, hv, hvs⟩ := hr
      simpa using ⟨v, hv, Nat.le_trans hvs hst⟩
    · simp only [write]
      split <;> simp_all
    · split
      · exact hK _ _
      · trivial

theorem within_afterWrite {updated : Invitation} :
    (afterWrite cfg ctx input updated).Within Grows (Follows i call) (fun _ _ => True) s := by
  unfold afterWrite
  simp only [liftM_eq]
  refine Prog.Within.bind <| within_quiet follows_of_db hush_findSettings fun _ _ =>
    (Prog.ends_true _).mono fun settings _ _ _ => ?_
  refine Prog.Within.bind <| within_quiet follows_of_db hush_clock fun _ _ =>
    (Prog.ends_true _).mono fun now _ _ _ => ?_
  refine Prog.Within.bind <| within_quiet follows_of_db hush_publishMilestone fun _ _ =>
    (Prog.ends_true _).mono fun _ _ _ _ => ?_
  split
  · exact Prog.Within.bind <| within_confirmApproval.weaken fun _ _ _ => trivial
  · trivial

/-- Every step of `approve`, whatever happens in between. -/
theorem approve_steps : (approve cfg ctx input).Within Grows (Follows i (.approve input))
    (fun _ _ => True) s := by
  have hwrite : ∀ {K : Invitation → World → Prop} {r t u}, (∀ x t, K x t) →
      t.row input.id = some r → Checked (.approve input) [r] → Grows t u →
      (perform (writeDecision input)).Within Grows (Follows i (.approve input)) K u :=
    fun {_ r t _} hK hr hc hu => within_writeDecision hK hc
      ⟨t, (t.db.invitations.id_eq hr).symm ▸ hr, hu⟩
  cases ha : input.approve with
  | true =>
    have hwritten : writeDecision input = writeApproval input := by rw [writeDecision, if_pos ha]
    rw [approve_eq ha]
    refine Prog.Within.bind <| within_quiet follows_of_db hush_checkApproval fun t _ =>
      ends_checkApproval fun r hr _ hyes hno _ => ?_
    have hc := checked_approve (t.db.invitations.id_eq hr) (fun h => (hyes h).2) hno
    have hgrant : (grantOnApproval input r).Within Grows (Follows i (.approve input))
        (fun _ u => Grows t u) t := by
      unfold grantOnApproval
      split
      · exact within_quiet follows_of_db hush_grantGuestAccess fun u hu =>
          (Prog.ends_true _).mono fun _ v _ hv => Nat.le_trans hu (by rw [hv])
      · exact Nat.le_refl _
    refine Prog.Within.bind <| hgrant.weaken fun _ u hu => ?_
    rw [← hwritten]
    exact Prog.Within.bind <| hwrite (fun _ _ => within_afterWrite) hr hc hu
  | false =>
    have hwritten : writeDecision input = writeRejection input := by
      rw [writeDecision, if_neg (by simp [ha])]
    rw [approve_eq_of_reject ha]
    refine Prog.Within.bind <| within_quiet follows_of_db hush_checkApproval fun t _ =>
      ends_checkApproval fun r hr _ hyes hno _ => ?_
    have hc := checked_approve (t.db.invitations.id_eq hr) (fun h => (hyes h).2) hno
    have hdrop : (dropOnRejection r).Within Grows (Follows i (.approve input))
        (fun _ u => Grows t u) t := by
      unfold dropOnRejection
      split
      · exact within_quiet follows_of_db hush_cacheDelete fun u hu =>
          (Prog.ends_true _).mono fun _ v _ hv => Nat.le_trans hu (by rw [hv])
      · exact Nat.le_refl _
    refine Prog.Within.bind <| hdrop.weaken fun _ u hu => ?_
    rw [← hwritten]
    exact hwrite (fun _ _ => trivial) hr hc hu

theorem bulkStage_steps {ids : List Nat} {staged : Bool} {e : Option EventId} :
    (bulkStage ids staged e).Within Grows (Follows i (.stage ids staged e))
      (fun _ _ => True) s := by
  unfold bulkStage
  simp only [liftM_eq]
  refine Prog.Within.bind <| within_quiet follows_of_db hush_readStaged fun t _ =>
    ends_readStaged fun hall _ => ?_
  refine within_run (fun _ _ => trivial) fun u fails hu => .inr ⟨_, fails, checked_stage hall,
    fun r hr => ⟨t, (mem_select.1 hr).1, hu⟩, ?_⟩
  simp only [write]
  split <;> simp_all [stageAll]

end

theorem account : Optimistic.Account (decisions i) Checked
    (fun _ seen w => ∀ r ∈ seen, r.id = i → statusOf i w = some r.status)
    (fun o w => ∃ st, statusOf i w = some st ∧ o.kind.Leaves st) where
  seen h := (read_spec h).1
  read {call s seen} h r hmem hi := by
    have := (read_spec h).2 r hmem
    rw [hi] at this
    rw [statusOf, fieldOf, this]
    rfl
  commit hc h := by
    rcases write_spec hc h with ⟨hne, -⟩ | ⟨he, -, hst⟩
    · cases hne
    · cases he
      exact hst
  fresh hq hidle r hmem hi := (idle hidle).trans (hq r hmem hi)
  last hst hidle := (idle hidle).symm ▸ hst
where
  idle {s t : World} (hidle : Optimistic.Idle (decisions i) Checked s t) :
      statusOf i t = statusOf i s := by
    cases hidle with
    | quiet h => exact h
    | fail hc h => exact ((write_spec hc h).resolve_right fun h => by cases h.1).2

section

variable {s : DecisionState} {h : List DecisionStep}

/-- Every status is written over one that the decision may overwrite, if and only if no decision
is committed directly after one that it is not in order after, unless it has read that status. -/
theorem decisions_legal_iff (hrun : (decisions i).machine.Run { shared := w } h s) :
    (∀ o ∈ s.log, o.Legal) ↔
      ∀ x ∈ h, Optimistic.Admitted (fun o last => o.kind.InOrder last.kind) x := by
  refine account.log_iff hrun (fun hc hq hw => ?_) fun hc hst hw => ?_
  · rcases write_spec hc hw with ⟨hne, -⟩ | ⟨he, hmem, -⟩
    · cases hne
    · cases he
      obtain ⟨r, hr, hi⟩ := List.mem_map.1 hmem
      rw [hq r hr hi]
      exact hc.legal r hr
  · rcases write_spec hc hw with ⟨hne, -⟩ | ⟨he, -⟩
    · cases hne
    · cases he
      obtain ⟨st, hst, hleaves⟩ := hst
      rw [hst]
      exact hleaves.legal_iff

end

def acceptedWorld : World := World.empty.setInvitations (InvitationTable.empty.insert
  { eventId := 7, firstName := "A", lastName := "B", status := .accepted,
    rsvpChoice := some .yes, type := .privateInvite } nofun)

def approval (approve : Bool) : Decision :=
  .approve { id := 0, approve, actorId := 3, activeEventId := some 7 }

def staging (staged : Bool) : Decision := .stage [0] staged (some 7)

theorem decisions_legal_iff_in_turn : ∃ h s,
    (decisions 0).machine.Run { shared := acceptedWorld } h s ∧ (∀ o ∈ s.log, o.Legal) ∧
      s.log.map (·.kind) = [.approve true, .stage true] := by
  have hrun : ((decisions 0).machine.trace { shared := acceptedWorld }
      [.read 0 (staging true), .read 1 (approval true), .write 0 fun _ => false,
        .write 1 fun _ => false]).any (fun x =>
          decide (∀ y ∈ x.1, Optimistic.Admitted (fun o last => o.kind.InOrder last.kind) y) &&
            x.2.log.map (·.kind) = [.approve true, .stage true]) := by decide +kernel
  obtain ⟨⟨h, s⟩, hx, hok⟩ := (Option.any_eq_true _ _).1 hrun
  obtain ⟨hadm, hlog⟩ := Bool.and_eq_true_iff.1 hok
  have hr := Machine.run_trace hx
  exact ⟨h, s, hr, (decisions_legal_iff hr).2 (of_decide_eq_true hadm), of_decide_eq_true hlog⟩

/-- A staging that has read the row before it is approved takes the approval back. -/
theorem decisions_not_legal : ¬ ∀ w h s, (decisions 0).machine.Run { shared := w } h s →
    ∀ o ∈ s.log, o.Legal := by
  intro hall
  have hrun : ((decisions 0).machine.trace { shared := acceptedWorld }
      [.read 0 (staging true), .read 1 (approval true), .write 1 fun _ => false,
        .write 0 fun _ => false]).any (fun x =>
          ⟨.stage true, some .approved⟩ ∈ x.2.log) := by decide +kernel
  obtain ⟨⟨h, s⟩, hx, hok⟩ := (Option.any_eq_true _ _).1 hrun
  have hlegal := hall _ h s (Machine.run_trace hx) _ (of_decide_eq_true hok)
  simp [Overwrite.Legal] at hlegal

end InvitationService.ConcurrentDecision

import InvitationService.Concurrency.Steps
import InvitationService.Lib.Optimistic

namespace InvitationService.ConcurrentReply

open Resumption Query GuestWrite InvitationTable
open Machine (Step)

/-! Replies to one invitation, each of which reads the row in one step and runs its transaction
in a later one. -/

structure Request where
  ctx : Context
  input : RSVPInput
  locale : Locale

/-- A reply that was committed, with the plus-ones it created. -/
structure Commit where
  choice : RsvpChoice
  plusOnes : Finset Nat
  deriving DecidableEq

def Commit.decides (c : Commit) : Bool := c.choice = .yes || c.choice = .no

abbrev choiceOf (i : Nat) (w : World) : Option (Option RsvpChoice) := fieldOf (·.rsvpChoice) i w

variable (cfg : Config) (i : Nat)

/-- The second half of `reply`, from the row it read. -/
def commit (q : Request) (invitation : Invitation) (now : Nat) (fails : Nat → Bool) (w : World) :
    Option RsvpChoice × World :=
  match planReply invitation q.input with
  | .error _ => (none, w)
  | .ok plan =>
    match (Query.transaction (replyTransaction cfg q.ctx invitation plan now q.input q.locale)).run
      (fun _ => fails) w with
    | (.ok _, w') => (some plan.decision.newChoice, w')
    | (.error _, w') => (none, w')

/-- Replies to `i`: each reads the row and, later, runs its transaction, with the clock it has
read before and the calls that fail.  What happens besides, the rest of `reply` included, leaves
the RSVP of the row alone. -/
def replies : Optimistic World Request Invitation (Nat × (Nat → Bool)) Commit where
  read q w := if q.input.invitationId = i then w.row i else none
  write q invitation choice w :=
    let (newChoice, w') := commit cfg q invitation choice.1 choice.2 w
    (newChoice.map fun c =>
      ⟨c, w'.db.invitations.children i \ w.db.invitations.children i⟩, w')
  quiet s t := choiceOf i t = choiceOf i s

instance : DecidableRel (replies cfg i).quiet := fun s t =>
  inferInstanceAs (Decidable (choiceOf i t = choiceOf i s))

abbrev ReplyState := Optimistic.State World Request Invitation Commit

abbrev ReplyStep := Step ReplyState (Optimistic.Move World Request (Nat × (Nat → Bool)))

variable {cfg : Config} {i : Nat}

theorem planReply_undecided {r : Invitation} {input : RSVPInput} {plan : ReplyPlan}
    (h : planReply r input = .ok plan) : r.rsvpChoice ≠ some .yes ∧ r.rsvpChoice ≠ some .no :=
  (planReply_spec h).undecided

theorem commit_spec {q : Request} {r : Invitation} {now : Nat} {fails : Nat → Bool} {w w' : World}
    {choice : Option RsvpChoice} (hid : r.id = q.input.invitationId)
    (h : commit cfg q r now fails w = (choice, w')) :
    (choice = none ∧ w'.db = w.db) ∨ ∃ c, choice = some c ∧
      (r.rsvpChoice ≠ some .yes ∧ r.rsvpChoice ≠ some .no) ∧
      choiceOf q.input.invitationId w' = some (some c) ∧
      (c ≠ .yes → w'.db.invitations.children q.input.invitationId =
        w.db.invitations.children q.input.invitationId) := by
  unfold commit at h
  split at h
  · cases h
    exact .inl ⟨rfl, rfl⟩
  · rename_i plan hplan
    have hspec := planReply_spec hplan
    have hends : (replyTransaction cfg q.ctx r plan now q.input q.locale).Ends (fun _ v =>
        choiceOf q.input.invitationId v = some (some plan.decision.newChoice) ∧
          (plan.decision.newChoice ≠ .yes → v.db.invitations.children q.input.invitationId =
            w.db.invitations.children q.input.invitationId)) w := by
      refine ends_replyTransaction hid fun r' _ t u v o hr' hins hu _ hdb => ?_
      have hlt : q.input.invitationId < w.db.invitations.next := w.db.invitations.id_lt hr'
      have hrow : t.row q.input.invitationId =
          some ((replyUpdate cfg r plan now q.input.replyInput).apply w.now r') := by
        rw [hins.row_of_lt (by simpa using hlt), patch_row_self]
        exact congrArg (Option.map _) hr'
      have hv : v.db.invitations = u := by rw [hdb]; rfl
      refine ⟨?_, fun hne => ?_⟩
      · rw [choiceOf, fieldOf, World.row, hv]
        rcases hu with rfl | ⟨token, payload, -, -, -, rfl⟩
        · rw [hrow]
          rfl
        · rw [patch_row_self, hrow]
          rfl
      · -- only a YES stores plus-ones
        have hnone : plan.allowedPlusOnes = [] := by
          rw [hspec.allowed]
          rw [hspec.newChoice] at hne
          split
          · exact absurd ‹_› hne
          · rfl
        rw [hnone] at hins
        obtain rfl : t = _ := by cases hins; rfl
        rw [hv]
        rcases hu with rfl | ⟨token, payload, -, -, -, rfl⟩ <;> simp
    have hpost := (Query.post_transaction hends).run fun _ => fails
    generalize (Query.transaction (replyTransaction cfg q.ctx r plan now q.input q.locale)).run
      (fun _ => fails) w = x at h hpost
    obtain ⟨result, u⟩ := x
    cases result with
    | ok a =>
      cases h
      exact .inr ⟨_, rfl, planReply_undecided hplan, hpost⟩
    | error e =>
      cases h
      exact .inl ⟨rfl, hpost⟩

/-! The code of `reply` makes no other steps. -/

def Follows (cfg : Config) (q : Request) (t u : World) : Prop :=
  choiceOf q.input.invitationId u = choiceOf q.input.invitationId t ∨
    ∃ r now fails, Snapshot Grows q.input.invitationId r t ∧ u = (commit cfg q r now fails t).2

section

variable {q : Request} {a s t u : World}

theorem choiceOf_approve {input : ApproveInvitationDTO}
    (hA : Action Grows cfg (.approveInvitation input) a t u) : choiceOf i u = choiceOf i t := by
  cases hA with
  | step _ hch _ _ _ _ =>
    generalize ht : u.db.invitations = v at hch
    cases hch with
    | same _ => rw [choiceOf, choiceOf, fieldOf, fieldOf, World.row, World.row, ht]
    | reject _ _ _ => exact fieldOf_patch (fun _ _ => rfl) ht
    | send _ _ _ _ _ _ => exact fieldOf_patch (fun _ _ => rfl) ht
    | create hc _ => exact hc.elim
    | remove hc => exact hc.elim
    | reply hc _ _ _ _ _ _ _ | plusOne _ hc _ _ _ _ _ _ | details hc _ | deleteOne hc _ _
    | deleteAll hc _ _ _ | publicRsvp hc _ _ _ | attach hc _ _ _ _ | limit hc _ _ | link hc
    | stage hc _ _ _ | removeMany hc _ => cases hc
  | project hp => exact hp.projects.elim
  | approve _ _ _ _ => exact fieldOf_patch (fun _ _ => rfl) rfl
  | confirm _ _ _ _ _ _ _ | resent _ | reminded _ | ticket _ _ => rfl

theorem follows_of_db : ∀ t u, u.db = t.db → Follows cfg q t u := fun _ _ h =>
    .inl (fieldOf_of_db h)

theorem within_approve {ctx : Context} {input : ApproveInvitationDTO} (ha : input.approve = true)
    (hseat : input.seatId = none) :
    (AdminWrite.approve cfg ctx input).Within Grows (Follows cfg q) (fun _ _ => True) s :=
  have happrove : Conforms Grows cfg (.approveInvitation input) s
      (AdminWrite.approve cfg ctx input) s :=
    AdminWrite.approve_conforms stable_grows (fun _ => .of_always fun _ => .inl ⟨ha, rfl⟩)
      (by simp [hseat, truthy]) (by simp [ha])
  Prog.Guarantees.mono happrove (fun _ _ h => h) (fun _ _ hA => .inl (choiceOf_approve hA))
    fun _ _ h => h

/-- Every step of `reply`, whatever happens in between. -/
theorem reply_steps : (reply cfg q.ctx q.input q.locale).Within Grows (Follows cfg q)
    (fun _ _ => True) s := by
  unfold reply
  simp only [liftM_eq]
  refine Prog.Within.bind <| within_quiet follows_of_db hush_ensureExists fun t _ => ?_
  rw [ends_ensureExists]
  intro r hr _
  refine Prog.Within.bind <| within_quiet follows_of_db hush_findSettings fun u hu =>
    ends_findSettings.2 fun _ => ?_
  cases hplan : planReply r q.input with
  | error e => trivial
  | ok plan =>
    rw [Prog.ok_bind]
    refine Prog.Within.bind <| within_quiet follows_of_db hush_clock fun v hv =>
      ends_clock.2 fun _ => ?_
    refine Prog.Within.bind (within_run (fun x w => ?_) fun w fails hw => .inr ⟨r, v.now, fails,
      ⟨t, hr, Nat.le_trans hu (Nat.le_trans hv hw)⟩, ?_⟩)
    swap
    · rw [commit, hplan]
      dsimp only
      split <;> simp_all
    obtain ⟨result, created⟩ := x
    refine Prog.Within.bind <| (Prog.within_forM (K := fun _ => True) (fun x _ s _ =>
      within_hushed follows_of_db hush_publishSeatingInfoUpdated) trivial).weaken fun _ x _ => ?_
    split
    · split
      · trivial
      · exact Prog.Within.bind <| (within_approve rfl rfl).weaken fun _ _ _ => trivial
    · trivial

end

/-- At most one reply decides, none is committed after it, and one at most created plus-ones. -/
structure Settled (log : List Commit) : Prop where
  once : (log.filter (·.decides)).length ≤ 1
  last : log.Pairwise fun _ earlier => earlier.decides = false
  plusOnes : (log.filter fun c => c.plusOnes ≠ ∅).length ≤ 1

def Decided (i : Nat) (w : World) : Prop :=
  choiceOf i w = some (some .yes) ∨ choiceOf i w = some (some .no)

def OnUndecided (i : Nat) (x : ReplyStep) : Prop :=
  x.after.log ≠ x.before.log → ¬ Decided i x.before.shared

instance (i : Nat) (x : ReplyStep) : Decidable (OnUndecided i x) :=
  inferInstanceAs (Decidable (_ → ¬ (_ ∨ _)))

section

variable {s t : ReplyState} {m : Optimistic.Move World Request (Nat × (Nat → Bool))}
  {h : List ReplyStep} {w : World}

structure Committed (i : Nat) (s t : ReplyState) (c : Commit) : Prop where
  log : t.log = c :: s.log
  read : ∃ n q r v, s.phase n = some (.read q r v) ∧ r.rsvpChoice ≠ some .yes ∧
    r.rsvpChoice ≠ some .no
  choice : choiceOf i t.shared = some (some c.choice)
  plusOnes : c.plusOnes ≠ ∅ → c.choice = .yes

theorem read_id {q : Request} {r : Invitation} (h : (replies cfg i).read q w = some r) :
    q.input.invitationId = i ∧ r.id = i := by
  simp only [replies] at h
  split at h
  · exact ⟨‹_›, w.db.invitations.id_eq h⟩
  · cases h

theorem write_spec {q : Request} {r : Invitation} {choice : Nat × (Nat → Bool)} {w' : World}
    {e : Option Commit} (hq : q.input.invitationId = i) (hr : r.id = i)
    (h : (replies cfg i).write q r choice w = (e, w')) : (e = none ∧ w'.db = w.db) ∨
      ∃ c, e = some c ∧ (r.rsvpChoice ≠ some .yes ∧ r.rsvpChoice ≠ some .no) ∧
        choiceOf i w' = some (some c.choice) ∧ (c.plusOnes ≠ ∅ → c.choice = .yes) := by
  simp only [replies] at h
  generalize hc : commit cfg q r choice.1 choice.2 w = x at h
  obtain ⟨newChoice, u⟩ := x
  cases h
  have hspec := commit_spec (hr.trans hq.symm) hc
  rw [hq] at hspec
  rcases hspec with ⟨rfl, hdb⟩ | ⟨c, rfl, hund, hchoice, hnone⟩
  · exact .inl ⟨rfl, hdb⟩
  · refine .inr ⟨_, rfl, hund, hchoice, fun hne => ?_⟩
    by_contra hyes
    exact hne (by rw [hnone hyes, Finset.sdiff_self])

theorem step_cases (hrun : (replies cfg i).machine.Run { shared := w } h s)
    (hm : (replies cfg i).step s m = some t) :
    (t.log = s.log ∧ choiceOf i t.shared = choiceOf i s.shared) ∨ ∃ c, Committed i s t c := by
  have hid : ∀ {n q r v}, s.phase n = some (.read q r v) → q.input.invitationId = i ∧ r.id = i :=
    fun hn => Optimistic.seen_of_run (D := fun q r => q.input.invitationId = i ∧ r.id = i) hrun
      (fun _ _ _ => read_id) hn
  cases Optimistic.step_effect hm with
  | stay hs hl => exact .inl ⟨hl, by rw [hs]⟩
  | other hq hl => exact .inl ⟨hl, hq⟩
  | fail hn hw hl =>
    obtain ⟨hq, hr⟩ := hid hn
    rcases write_spec hq hr hw with ⟨-, hdb⟩ | ⟨c, hc, -⟩
    · exact .inl ⟨hl, fieldOf_of_db hdb⟩
    · cases hc
  | commit hn _ hw hl =>
    obtain ⟨hq, hr⟩ := hid hn
    rcases write_spec hq hr hw with ⟨hc, -⟩ | ⟨c, hc, hund, hchoice, hplus⟩
    · cases hc
    · cases hc
      exact .inr ⟨_, hl, ⟨_, _, _, _, hn, hund⟩, hchoice, hplus⟩

theorem decided_of_run (hrun : (replies cfg i).machine.Run { shared := w } h s) {n : Nat}
    {q : Request} {r : Invitation} {v : Nat} (hn : s.phase n = some (.read q r v))
    (hyes : r.rsvpChoice ≠ some .yes) (hno : r.rsvpChoice ≠ some .no) (hdec : Decided i s.shared) :
    ∃ c ∈ s.log, c.decides = true := by
  induction hrun generalizing n q r v with
  | nil => simp at hn
  | @snoc h s t m hrun hm ih =>
    rcases step_cases hrun hm with ⟨hlog, hchoice⟩ | ⟨c, hc⟩
    · rw [hlog]
      rw [Decided, hchoice] at hdec
      rcases Optimistic.step_phase hm hn with hn | ⟨hread, -⟩
      · exact ih hn hyes hno hdec
      · have hrow : s.shared.row i = some r := by
          simp only [replies] at hread
          split at hread
          · exact hread
          · cases hread
        simp [fieldOf, hrow, hyes, hno] at hdec
    · rw [hc.log]
      refine ⟨c, by simp, ?_⟩
      rw [Decided, hc.choice] at hdec
      simpa [Commit.decides] using hdec

theorem length_filter_le_one {log : List Commit} {p : Commit → Bool}
    (hp : ∀ c ∈ log, p c = true → c.decides = true)
    (hlast : log.Pairwise fun _ earlier => earlier.decides = false) :
    (log.filter p).length ≤ 1 := by
  cases hlast with
  | nil => simp
  | @cons c log hc _ =>
    have hnone : log.filter p = [] := List.filter_eq_nil_iff.2 fun c' hc' hpc => by
      have := hc c' hc'
      rw [hp c' (List.mem_cons_of_mem _ hc') hpc] at this
      cases this
    rw [List.filter_cons, hnone]
    split <;> simp

theorem settled_iff {log : List Commit} (hplus : ∀ c ∈ log, c.plusOnes ≠ ∅ → c.choice = .yes) :
    Settled log ↔ log.Pairwise fun _ earlier => earlier.decides = false where
  mp hs := hs.last
  mpr hlast := ⟨length_filter_le_one (fun _ _ h => h) hlast, hlast,
    length_filter_le_one (fun c hc hne => by
      rw [Commit.decides, hplus c hc (by simpa using hne)]
      rfl) hlast⟩

theorem plusOnes_of_run (hrun : (replies cfg i).machine.Run { shared := w } h s) :
    ∀ c ∈ s.log, c.plusOnes ≠ ∅ → c.choice = .yes := by
  induction hrun with
  | nil => simp
  | @snoc h s t m hrun hm ih =>
    rcases step_cases hrun hm with ⟨hlog, -⟩ | ⟨c, hc⟩
    · rwa [hlog]
    · rw [hc.log]
      intro c' hc'
      rcases List.mem_cons.1 hc' with rfl | hc'
      · exact hc.plusOnes
      · exact ih c' hc'

theorem pairwise_iff (hrun : (replies cfg i).machine.Run { shared := w } h s) :
    ((s.log.Pairwise fun _ earlier => earlier.decides = false) ↔ ∀ x ∈ h, OnUndecided i x) ∧
      ((∀ x ∈ h, OnUndecided i x) → (∃ c ∈ s.log, c.decides = true) → Decided i s.shared) := by
  induction hrun with
  | nil => simp
  | @snoc h s t m hrun hm ih =>
    simp only [List.forall_mem_append, List.forall_mem_singleton]
    rcases step_cases hrun hm with ⟨hlog, hchoice⟩ | ⟨c, hc⟩
    · have hlast : OnUndecided i ⟨s, m, t⟩ := fun h => absurd hlog h
      rw [hlog, Decided, hchoice]
      exact ⟨⟨fun hp => ⟨ih.1.1 hp, hlast⟩, fun hx => ih.1.2 hx.1⟩, fun hx => ih.2 hx.1⟩
    · have hgrown : t.log ≠ s.log := by simp [hc.log]
      have hdec : c.decides = true → Decided i t.shared := fun h => by
        rw [Decided, hc.choice]
        simpa [Commit.decides] using h
      refine ⟨⟨fun hp => ?_, fun hx => ?_⟩, fun hx => ?_⟩
      · rw [hc.log, List.pairwise_cons] at hp
        refine ⟨ih.1.1 hp.2, fun _ hd => ?_⟩
        obtain ⟨n, q, r, v, hr, hyes, hno⟩ := hc.read
        obtain ⟨c', hc', hd'⟩ := decided_of_run hrun hr hyes hno hd
        rw [hp.1 c' hc'] at hd'
        cases hd'
      · rw [hc.log, List.pairwise_cons]
        refine ⟨fun c' hc' => ?_, ih.1.2 hx.1⟩
        cases hd : c'.decides with
        | false => rfl
        | true => exact absurd (ih.2 hx.1 ⟨c', hc', hd⟩) (hx.2 hgrown)
      · rw [hc.log]
        rintro ⟨c', hc', hd⟩
        rcases List.mem_cons.1 hc' with rfl | hc'
        · exact hdec hd
        · exact absurd (ih.2 hx.1 ⟨c', hc', hd⟩) (hx.2 hgrown)

/-- Replies settle an invitation if and only if each that is committed finds it undecided. -/
theorem replies_settled_iff (hrun : (replies cfg i).machine.Run { shared := w } h s) :
    Settled s.log ↔ ∀ x ∈ h, OnUndecided i x :=
  (settled_iff (plusOnes_of_run hrun)).trans (pairwise_iff hrun).1

end

def invitedWorld : World := World.empty.setInvitations (InvitationTable.empty.insert
  { eventId := 7, firstName := "A", lastName := "B", status := .pending, maxInvitees := 2,
    type := .privateInvite } nofun)

def acceptance : Request where
  ctx := { tenantId := some 1 }
  locale := "de-DE"
  input := { invitationId := 0, choice := .yes, replyInput := some {
    firstName := "A", lastName := "B"
    phoneNumbers := [{ number := "1", type := .mobile, countryCode := "49" }]
    plusOnes := [{ firstName := "C", lastName := "B", plusOneAgeCategory := some .overSix }] } }

def hesitation : Request := { acceptance with input := { invitationId := 0, choice := .maybe } }

theorem replies_settled_iff_in_turn : ∃ h s, (replies plainConfig 0).machine.Run
    { shared := invitedWorld } h s ∧
    Settled s.log ∧ s.log.map (·.choice) = [.yes, .maybe] := by
  have hrun : ((replies plainConfig 0).machine.trace { shared := invitedWorld }
      [.read 0 hesitation, .write 0 (0, fun _ => false), .read 1 acceptance,
        .write 1 (0, fun _ => false)]).any (fun x => decide (∀ y ∈ x.1, OnUndecided 0 y) &&
          x.2.log.map (·.choice) = [.yes, .maybe]) := by decide +kernel
  obtain ⟨⟨h, s⟩, hx, hok⟩ := (Option.any_eq_true _ _).1 hrun
  obtain ⟨hund, hlog⟩ := Bool.and_eq_true_iff.1 hok
  have hr := Machine.run_trace hx
  exact ⟨h, s, hr, (replies_settled_iff hr).2 (of_decide_eq_true hund), of_decide_eq_true hlog⟩

/-- Two replies that both read the row before either is committed: both accept, and each creates a
plus-one. -/
theorem replies_not_settled : ¬ ∀ w h s, (replies plainConfig 0).machine.Run { shared := w } h s →
    Settled s.log := by
  intro hall
  have hrun : ((replies plainConfig 0).machine.trace { shared := invitedWorld }
      [.read 0 acceptance, .read 1 acceptance, .write 0 (0, fun _ => false),
        .write 1 (0, fun _ => false)]).any (fun x =>
          1 < (x.2.log.filter (·.decides)).length ∧
            1 < (x.2.log.filter fun c => c.plusOnes ≠ ∅).length) := by decide +kernel
  obtain ⟨⟨h, s⟩, hx, hok⟩ := (Option.any_eq_true _ _).1 hrun
  exact absurd (hall _ h s (Machine.run_trace hx)).once (Nat.not_le.2 (of_decide_eq_true hok).1)

end InvitationService.ConcurrentReply

import InvitationService.Concurrency.Steps
import InvitationService.Lib.ReadCommitted

namespace InvitationService.ConcurrentLimit

open ReadCommitted

/-! Plus-ones of one invitation that are created and removed while their limit is changed, one
statement at a time. -/

structure Account where
  maxInvitees : Int
  children : Finset Nat
  deriving DecidableEq

def Account.total (a : Account) : Int := a.maxInvitees + a.children.card

inductive Row
  | parent
  | child (i : Nat)
  deriving DecidableEq

inductive Write
  | capacity (maxInvitees : Int)
  | insert (i : Nat)
  | delete (i : Nat)

def Write.row : Write → Row
  | .capacity _ => .parent
  | .insert i | .delete i => .child i

def Account.apply (a : Account) : Write → Account
  | .capacity n => { a with maxInvitees := n }
  | .insert i => { a with children := insert i a.children }
  | .delete i => { a with children := a.children.erase i }

/-- The next statement of a transaction: `claim` and `insert` of `createPlusOne`; `find` of
`deletePlusOne` and `list` of `deleteAllPlusOnes`; `remove` of both, with the plus-ones that are
left to be deleted and the places they give back; `count` and `store` of `updatePlusOneLimit`. -/
inductive Phase
  | claim
  | insert
  | find (i : Nat)
  | list
  | remove (rest : Finset Nat) (count : Nat)
  | count (maxPlusOnes : Int)
  | store (maxPlusOnes : Int) (assignedCount : Nat)
  | done (limit : Option (Int × Nat))

/-- The id of the row that is created or deleted next, and the plus-ones that are listed: those of
another event than the parent are not. -/
structure Choice where
  row : Nat := 0
  rows : Finset Nat := ∅

def statement (a : Account) (c : Choice) : Phase → Outcome Phase Write
  | .claim =>
    if 0 < a.maxInvitees then .next .insert (some (.capacity (a.maxInvitees - 1))) else .fail
  | .insert =>
    if c.row ∈ a.children then .fail else .next (.done none) (some (.insert c.row))
  | .find i => if i ∈ a.children then .next (.remove {i} 1) none else .fail
  | .list => if c.rows ⊆ a.children then .next (.remove c.rows c.rows.card) none else .fail
  | .remove rest count =>
    if rest = ∅ then .next (.done none) (some (.capacity (a.maxInvitees + count)))
    else if c.row ∈ rest ∧ c.row ∈ a.children then
      .next (.remove (rest.erase c.row) count) (some (.delete c.row))
    else .fail
  | .count maxPlusOnes =>
    if maxPlusOnes < a.children.card then .fail
    else .next (.store maxPlusOnes a.children.card) none
  | .store maxPlusOnes assignedCount =>
    .next (.done (some (maxPlusOnes, assignedCount)))
      (some (.capacity (maxPlusOnes - assignedCount)))
  | .done _ => .fail

theorem statement_list {a : Account} {c : Choice} (h : c.rows ⊆ a.children) :
    statement a c .list = .next (.remove c.rows c.rows.card) none := if_pos h

theorem statement_remove {a : Account} {c : Choice} {rest : Finset Nat} {count : Nat}
    (hr : c.row ∈ rest) (ha : c.row ∈ a.children) : statement a c (.remove rest count) =
      .next (.remove (rest.erase c.row) count) (some (.delete c.row)) := by
  simp only [statement, if_neg (Finset.ne_empty_of_mem hr), if_pos (And.intro hr ha)]

theorem statement_release {a : Account} {c : Choice} {count : Nat} :
    statement a c (.remove ∅ count) =
      .next (.done none) (some (.capacity (a.maxInvitees + count))) := by
  simp only [statement, if_true]

def Phase.initial : Phase → Bool
  | .claim | .find _ | .list | .count _ => true
  | _ => false

def Phase.final : Phase → Bool
  | .done _ => true
  | _ => false

/-- Any number of the four transactions on one parent. -/
def plusOnes : ReadCommitted Account Row Phase Write Choice where
  apply := Account.apply
  key := Write.row
  statement := statement
  initial := Phase.initial
  final := Phase.final

abbrev PlusOneState := State Account Row Phase Write

abbrev PlusOneStep := Machine.Step PlusOneState (Move Phase Choice)

variable {a b : Account} {is : List Nat} {n : Nat}

structure Deletes (is : List Nat) (a : Account) : Prop where
  nodup : is.Nodup
  mem : ∀ i ∈ is, i ∈ a.children

def Wrote (a : Account) (own : List Write) : Phase → Prop
  | .claim | .find _ | .list | .count _ => own = []
  | .insert => 0 < a.maxInvitees ∧ own = [.capacity (a.maxInvitees - 1)]
  | .remove rest count => ∃ is, Deletes is a ∧ own = is.map .delete ∧
      (∀ i ∈ is, i ∉ rest) ∧ rest.card + is.length = count
  | .store maxPlusOnes assignedCount => assignedCount ≤ maxPlusOnes ∧ own = []
  | .done (some (maxPlusOnes, assignedCount)) =>
    assignedCount ≤ maxPlusOnes ∧ own = [.capacity (maxPlusOnes - assignedCount)]
  | .done none =>
    (∃ i, i ∉ a.children ∧ 0 < a.maxInvitees ∧
      own = [.capacity (a.maxInvitees - 1), .insert i]) ∨
    ∃ is, Deletes is a ∧ own = is.map .delete ++ [.capacity (a.maxInvitees + is.length)]

theorem view_deletes : plusOnes.view a (is.map .delete) =
    ⟨a.maxInvitees, a.children \ is.toFinset⟩ := by
  induction is generalizing a with
  | nil => simp [view]
  | cons i is ih =>
    rw [List.map_cons, view, List.foldl_cons]
    refine ih.trans ?_
    simp only [plusOnes, Account.apply, Account.mk.injEq, true_and]
    ext j
    simp only [Finset.mem_sdiff, Finset.mem_erase, List.mem_toFinset, List.mem_cons, not_or]
    tauto

theorem view_append {own own' : List Write} :
    plusOnes.view a (own ++ own') = plusOnes.view (plusOnes.view a own) own' :=
  List.foldl_append

theorem Wrote.final {own : List Write} {ph : Phase} (h : Wrote a own ph) (hfin : ph.final = true) :
    ∃ w ∈ own, w.row = .parent := by
  cases ph with
  | done limit =>
    rcases limit with _ | ⟨m, k⟩
    · rcases h with ⟨i, -, -, rfl⟩ | ⟨is, -, rfl⟩
      · exact ⟨_, List.mem_cons_self, rfl⟩
      · exact ⟨.capacity _, List.mem_append_right _ (List.mem_singleton.2 rfl), rfl⟩
    · obtain ⟨-, rfl⟩ := h
      exact ⟨_, List.mem_cons_self, rfl⟩
  | _ => cases hfin

theorem mem_children_view {own : List Write} {i : Nat} (hi : i ∈ a.children)
    (hown : ∀ w ∈ own, w.row ≠ .child i) : i ∈ (plusOnes.view a own).children := by
  induction own generalizing a with
  | nil => exact hi
  | cons w own ih =>
    refine ih (a := a.apply w) ?_ fun v hv => hown v (List.mem_cons_of_mem _ hv)
    cases w with
    | capacity n => exact hi
    | insert j => exact Finset.mem_insert_of_mem hi
    | delete j =>
      refine Finset.mem_erase_of_ne_of_mem (fun hij => ?_) hi
      exact hown (.delete j) (by simp) (by rw [hij]; rfl)

theorem Deletes.view {own : List Write} (hd : Deletes is a)
    (hown : ∀ w ∈ is.map Write.delete, ∀ v ∈ own, w.row ≠ v.row) :
    Deletes is (plusOnes.view a own) where
  nodup := hd.nodup
  mem i hi := mem_children_view (hd.mem i hi) fun v hv hrow =>
    hown (.delete i) (List.mem_map_of_mem hi) v hv hrow.symm

inductive Committed (a b : Account) : Option (Int × Nat) → Prop
  | kept : (0 ≤ a.maxInvitees → 0 ≤ b.maxInvitees) → b.total = a.total → Committed a b none
  | limit {maxPlusOnes : Int} {assignedCount : Nat} : assignedCount ≤ maxPlusOnes →
      b.maxInvitees = maxPlusOnes - assignedCount → b.children = a.children →
      Committed a b (some (maxPlusOnes, assignedCount))

theorem Wrote.committed {own : List Write} {limit : Option (Int × Nat)}
    (h : Wrote a own (.done limit)) : Committed a (plusOnes.view a own) limit := by
  rcases limit with _ | ⟨m, k⟩
  · rcases h with ⟨i, hi, hpos, rfl⟩ | ⟨is, hd, rfl⟩
    · have hcard : (insert i a.children).card = a.children.card + 1 :=
        Finset.card_insert_of_notMem hi
      refine .kept (fun _ => ?_) ?_
      · simp only [ReadCommitted.view, plusOnes, Account.apply, List.foldl_cons, List.foldl_nil]
        omega
      · simp only [ReadCommitted.view, plusOnes, Account.apply, Account.total, List.foldl_cons,
          List.foldl_nil, hcard]
        omega
    · have hsub : is.toFinset ⊆ a.children := fun i hi => hd.mem i (List.mem_toFinset.1 hi)
      have hlen : is.toFinset.card = is.length := List.toFinset_card_of_nodup hd.nodup
      have hle := Finset.card_le_card hsub
      have hcard := Finset.card_sdiff_of_subset hsub
      rw [view_append, view_deletes]
      refine .kept (fun h0 => ?_) ?_
      · simp only [ReadCommitted.view, plusOnes, Account.apply, List.foldl_cons, List.foldl_nil]
        omega
      · simp only [ReadCommitted.view, plusOnes, Account.apply, Account.total, List.foldl_cons,
          List.foldl_nil, hcard]
        omega
  · obtain ⟨hle, rfl⟩ := h
    exact .limit hle rfl rfl

theorem Wrote.frame {own own' : List Write} {ph ph' : Phase} (h : Wrote a own ph)
    (h' : Wrote a own' ph') (hfin : ph'.final = true)
    (hown : ∀ w ∈ own, ∀ v ∈ own', w.row ≠ v.row) : Wrote (plusOnes.view a own') own ph := by
  obtain ⟨v, hv, hrow⟩ := h'.final hfin
  -- the other transaction holds the parent, so this one has not written it
  have hparent : ∀ n, Write.capacity n ∉ own := fun n hn => hown _ hn v hv hrow.symm
  cases ph with
  | claim | find | list | count | store => exact h
  | insert =>
    obtain ⟨-, rfl⟩ := h
    exact absurd (List.mem_singleton.2 rfl) (hparent _)
  | remove rest count =>
    obtain ⟨is, hd, rfl, hrest, hcount⟩ := h
    exact ⟨is, hd.view hown, rfl, hrest, hcount⟩
  | done limit =>
    obtain ⟨w, hw, hwrow⟩ := h.final rfl
    exact absurd (hwrow.trans hrow.symm) (hown w hw v hv)

theorem Deletes.snoc {i : Nat} (hd : Deletes is a) (hi : i ∈ a.children) (his : i ∉ is) :
    Deletes (is ++ [i]) a where
  nodup := List.nodup_append.2 ⟨hd.nodup, List.nodup_singleton i, fun j hj k hk hjk => by
    rw [List.mem_singleton.1 hk] at hjk
    exact his (hjk ▸ hj)⟩
  mem j hj := by
    rcases List.mem_append.1 hj with hj | hj
    · exact hd.mem j hj
    · exact List.mem_singleton.1 hj ▸ hi

theorem Wrote.next {own : List Write} {ph ph' : Phase} {c : Choice} {w : Option Write}
    (h : Wrote a own ph) (hst : statement (plusOnes.view a own) c ph = .next ph' w) :
    Wrote a (own ++ w.toList) ph' := by
  cases ph with
  | claim =>
    obtain rfl : own = [] := h
    simp only [statement] at hst
    split at hst <;> cases hst
    exact ⟨‹_›, rfl⟩
  | insert =>
    obtain ⟨hpos, rfl⟩ := h
    simp only [statement] at hst
    split at hst <;> cases hst
    exact .inl ⟨c.row, ‹_›, hpos, rfl⟩
  | find i =>
    obtain rfl : own = [] := h
    simp only [statement] at hst
    split at hst <;> cases hst
    exact ⟨[], ⟨List.nodup_nil, by simp⟩, rfl, by simp, rfl⟩
  | list =>
    obtain rfl : own = [] := h
    simp only [statement] at hst
    split at hst <;> cases hst
    exact ⟨[], ⟨List.nodup_nil, by simp⟩, rfl, by simp, rfl⟩
  | remove rest count =>
    obtain ⟨is, hd, rfl, hrest, hcount⟩ := h
    simp only [statement, view_deletes] at hst
    split at hst
    · cases hst
      rename_i hempty
      obtain rfl : is.length = count := by simpa [hempty] using hcount
      exact .inr ⟨is, hd, rfl⟩
    · split at hst <;> cases hst
      rename_i hrow
      obtain ⟨hmem, hrow⟩ := hrow
      refine ⟨is ++ [c.row], hd.snoc (Finset.mem_sdiff.1 hrow).1 fun h => hrest _ h hmem, by simp,
        fun j hj => ?_, ?_⟩
      · rcases List.mem_append.1 hj with hj | hj
        · exact fun h => hrest j hj (Finset.mem_of_mem_erase h)
        · rw [List.mem_singleton.1 hj]
          exact Finset.notMem_erase _ rest
      · have := Finset.card_erase_add_one hmem
        simp only [List.length_append, List.length_singleton]
        omega
  | count maxPlusOnes =>
    obtain rfl : own = [] := h
    simp only [statement] at hst
    split at hst <;> cases hst
    exact ⟨Int.not_lt.1 ‹_›, rfl⟩
  | store maxPlusOnes assignedCount =>
    obtain ⟨hle, rfl⟩ := h
    cases hst
    exact ⟨hle, rfl⟩
  | done limit => cases hst

theorem protocol {p : Prop} : Protocol plusOnes (fun a => p → 0 ≤ a.maxInvitees)
    (fun x a => Wrote a x.own x.phase) where
  start {ph s} hini := by cases ph <;> first | rfl | cases hini
  read _ h hst := by simpa using h.next hst
  write _ h hst := h.next hst
  commit {y s} hs h hfin := by
    obtain ⟨ph, own⟩ := y
    cases ph with
    | done limit =>
      intro hp
      cases h.committed with
      | kept hmax _ => exact hmax (hs hp)
      | limit hle hmax _ => rw [hmax]; omega
    | _ => cases hfin
  frame h h' hfin hown := h.frame h' hfin hown

/-- A limit that was committed, with the plus-ones it counted and those there were. -/
structure LimitCommit where
  maxPlusOnes : Int
  assignedCount : Nat
  children : Nat
  deriving DecidableEq

def limitCommit (e : Entry Account Phase) : Option LimitCommit :=
  match e.phase with
  | .done (some (maxPlusOnes, assignedCount)) =>
    some ⟨maxPlusOnes, assignedCount, e.found.children.card⟩
  | _ => none

def lastLimit (s : PlusOneState) : Option LimitCommit := s.log.findSome? limitCommit

/-- The limit that is in force; `total` is the one from the beginning. -/
def limitOf (total : Int) (s : PlusOneState) : Int :=
  ((lastLimit s).map (·.maxPlusOnes)).getD total

section

variable {s t : PlusOneState} {h : List PlusOneStep}

theorem step_cases (hs : ∀ n x, s.txn n = some x → Wrote s.committed x.own x.phase)
    {m : Move Phase Choice} (he : plusOnes.Effect s t m) :
    (lastLimit t = lastLimit s ∧ t.committed.total = s.committed.total) ∨
      ∃ l, lastLimit t = some l ∧ l.children = t.committed.children.card ∧
        t.committed.maxInvitees = l.maxPlusOnes - l.assignedCount := by
  cases he with
  | start _ _ ht | read _ _ ht | write _ _ _ ht | stop ht =>
    subst ht
    exact .inl ⟨rfl, rfl⟩
  | @commit n x hn hfin ht =>
    subst ht
    obtain ⟨ph, own⟩ := x
    cases ph with
    | done limit =>
      have hc : Committed s.committed (plusOnes.view s.committed own) limit :=
        (hs n _ hn).committed
      cases hc with
      | kept _ htotal => exact .inl ⟨rfl, htotal⟩
      | limit _ hmax hchildren => exact .inr ⟨_, rfl, congrArg Finset.card hchildren.symm, hmax⟩
    | _ => cases hfin

/-- The limit is what is left and what is taken, if and only if the update that set it has counted
the plus-ones that there are when it is committed. -/
theorem limit_kept_iff (hrun : plusOnes.machine.Run { committed := a } h s) :
    (s.committed.total = limitOf a.total s ↔
      ∀ l ∈ lastLimit s, l.assignedCount = l.children) ∧
    (0 ≤ a.maxInvitees → 0 ≤ s.committed.maxInvitees) := by
  refine ⟨?_, (protocol.kept_of_run id hrun).committed⟩
  induction hrun with
  | nil => simp [limitOf, lastLimit]
  | @snoc h s t m hrun hm ih =>
    have hs := (protocol (p := False)).kept_of_run nofun hrun
    rcases step_cases hs.txn (step_effect hm) with ⟨hlast, htotal⟩ | ⟨l, hlast, hchildren, hmax⟩
    · rw [htotal, limitOf, hlast]
      exact ih
    · rw [limitOf, hlast, Account.total, hmax, ← hchildren]
      simp only [Option.map_some, Option.getD_some, Option.mem_def, Option.some.injEq, forall_eq']
      omega

theorem limit_kept_iff_in_turn : ∃ h s,
    plusOnes.machine.Run { committed := ⟨2, ∅⟩ } h s ∧ s.committed = ⟨2, {9}⟩ ∧
      s.committed.total = limitOf 2 s := by
  have hrun : (plusOnes.machine.trace { committed := ⟨2, ∅⟩ }
      [.start 0 .claim, .run 0 {}, .start 1 (.count 3), .run 0 { row := 9 }, .commit 0, .run 1 {},
        .run 1 {}, .commit 1]).any (fun x : List PlusOneStep × PlusOneState =>
          decide (x.2.committed = ⟨2, {9}⟩) &&
            decide (∀ l ∈ lastLimit x.2, l.assignedCount = l.children)) := by decide +kernel
  obtain ⟨⟨h, s⟩, hx, hok⟩ := (Option.any_eq_true _ _).1 hrun
  obtain ⟨hcommitted, hlast⟩ := Bool.and_eq_true_iff.1 hok
  have hr := Machine.run_trace hx
  exact ⟨h, s, hr, of_decide_eq_true hcommitted,
    (limit_kept_iff hr).1.2 (of_decide_eq_true hlast)⟩

/-- A plus-one that is created after the others were counted, and committed before the limit is
stored: one more than the limit allows. -/
theorem limit_not_kept : ¬ ∀ a h s, plusOnes.machine.Run { committed := a } h s →
    0 ≤ a.maxInvitees → (∀ n, s.txn n = none) →
      s.committed.total = limitOf a.total s ∧ 0 ≤ s.committed.maxInvitees := by
  intro hall
  have hrun : (plusOnes.machine.trace { committed := ⟨2, ∅⟩ }
      [.start 0 (.count 2), .run 0 {}, .start 1 .claim, .run 1 {}, .run 1 { row := 9 }, .commit 1,
        .run 0 {}, .commit 0]).any (fun x =>
          decide (∀ y ∈ x.1, ∀ n ∈ y.move.starts, (x.2.txn n).isNone) &&
            decide (x.2.committed.total = 3 ∧ limitOf 2 x.2 = 2)) := by decide +kernel
  obtain ⟨⟨h, s⟩, hx, hok⟩ := (Option.any_eq_true _ _).1 hrun
  obtain ⟨hover, htotal, hlimit⟩ : (∀ y ∈ h, ∀ n ∈ y.move.starts, (s.txn n).isNone) ∧
      s.committed.total = 3 ∧ limitOf 2 s = 2 := by simpa using hok
  have hr := Machine.run_trace hx
  have hidle : ∀ n, s.txn n = none := fun n => by
    cases hn : s.txn n with
    | none => rfl
    | some x =>
      obtain ⟨y, hy, hstart⟩ := starts_of_run hr hn
      have := hover y hy n hstart
      simp [hn] at this
  have htotal' := (hall _ h s hr (by decide) hidle).1
  rw [htotal, show (⟨2, ∅⟩ : Account).total = 2 from rfl, hlimit] at htotal'
  cases htotal'

end

/-! The statements of the code are those of the transactions above. -/

open Resumption Query GuestWrite InvitationTable AdminWrite

section

def account (p : Nat) (w : World) : Account where
  maxInvitees := ((w.row p).map (·.maxInvitees)).getD 0
  children := w.db.invitations.children p

def Parents (parent : Nat → Option Nat) (w : World) : Prop :=
  ∀ i r, w.row i = some r → r.invitedByInvitationId = parent i

variable {cfg : Config} {ctx : Context} {p i now : Nat} {w : World} {r : Invitation}
  {d : InvitationUpdate} {parent : Nat → Option Nat} {ph : Phase} {α : Type}

theorem account_patch (hd : d.maxInvitees = none) :
    account p (w.setInvitations (w.db.invitations.patch i d now)) = account p w := by
  have hrow : ((w.db.invitations.patch i d now).row p).map (·.maxInvitees) =
      (w.db.invitations.row p).map (·.maxInvitees) := by
    rw [patch_row]
    split
    · rw [Option.map_map]
      congr 1
      funext r
      simp [InvitationUpdate.apply, hd, CountUpdate.apply]
    · rfl
  simp only [account, World.row, World.setInvitations_invitations, hrow, children_patch]

theorem account_capacity {n : CountUpdate} (hr : w.row p = some r) :
    account p (w.setInvitations (w.db.invitations.patch p { maxInvitees := some n } now)) =
      (account p w).apply (.capacity (n.apply r.maxInvitees)) := by
  simp [account, Account.apply, World.row, show w.db.invitations.row p = some r from hr,
    InvitationUpdate.apply]

theorem account_insert (h) (hp : r.invitedByInvitationId = some p) :
    account p (w.setInvitations (w.db.invitations.insert r h)) =
      (account p w).apply (.insert w.db.invitations.next) := by
  have hlt : p < w.db.invitations.next := InvitationTable.ParentExists.lt (hp ▸ h)
  simp [account, Account.apply, World.row, children_insert h hp, insert_row_of_lt h hlt]

theorem account_remove (hr : w.row i = some r) (hp : r.invitedByInvitationId = some p) :
    account p (w.setInvitations (w.db.invitations.remove (· == i))) =
      (account p w).apply (.delete i) := by
  have hlt : p < i := w.db.invitations.parent_lt hr hp
  have hrow := row_remove_of_lt (t := w.db.invitations) hlt
  have hsome : ((w.db.invitations.remove (· == i)).row p).isSome := by
    rw [hrow]
    exact w.db.invitations.parent_row hr hp
  simp [account, Account.apply, children_remove hsome, hrow, World.row]

abbrev TracksOn (parent : Nat → Option Nat) (p : Nat) (K : α → Phase → Prop) (b : Query α)
    (ph : Phase) : Prop := plusOnes.Tracks (Parents parent) (account p) K b ph

variable {K : α → Phase → Prop}

theorem tracks_ensureExists {K : Invitation → Phase → Prop}
    (h : ∀ r, r.id = i → r.invitedByInvitationId = parent i → K r ph) :
    TracksOn parent p K (ensureExists i) ph := by
  refine Tracks.bind <| tracks_quiet (fun _ => rfl) fun t x ht hx => ?_
  cases hx
  cases hr : t.row i with
  | none => trivial
  | some r => exact h r (t.db.invitations.id_eq hr) (ht i r hr)

theorem tracks_assertMatchesActiveEvent {e : EventId} {a : Option EventId} {K : Unit → Phase → Prop}
    (h : K () ph) : TracksOn parent p K (assertMatchesActiveEvent e a) ph := by
  unfold assertMatchesActiveEvent
  split
  · trivial
  · split
    · exact h
    · trivial

theorem tracks_getPermissionsForUser {u : UserId} {e : EventId} {K : List String → Phase → Prop}
    (h : ∀ x, K x ph) : TracksOn parent p K (getPermissionsForUser cfg u e) ph := by
  refine Tracks.bind <| tracks_quiet (fun _ => rfl) fun _ x _ _ => ?_
  cases x with
  | some access => exact h _
  | none => exact Tracks.bind <| tracks_quiet (fun _ => rfl) fun _ _ _ _ => h _

theorem tracks_ensureUserCanManage {u : Option UserId} {K : Bool → Phase → Prop}
    (h : ∀ b, K b ph) : TracksOn parent p K (ensureUserCanManageParentInvitation cfg i u) ph := by
  unfold ensureUserCanManageParentInvitation
  split
  · trivial
  · refine Tracks.bind <| tracks_ensureExists fun r _ _ => ?_
    split
    · exact h false
    · refine Tracks.bind <| tracks_getPermissionsForUser fun permissions => ?_
      split
      · exact h true
      · trivial

theorem follows_write {a b : Account} {c : Choice} {ph' : Phase} {w : Write}
    (hst : statement a c ph = .next ph' (some w)) (hb : b = a.apply w) :
    plusOnes.Follows ph a ph' b :=
  .inr ⟨c, some w, hst, hb⟩

theorem follows_read {a : Account} {c : Choice} {ph' : Phase}
    (hst : statement a c ph = .next ph' none) : plusOnes.Follows ph a ph' a :=
  .inr ⟨c, none, hst, rfl⟩

theorem tracks_capacity {n : CountUpdate} {ph' : Phase} {K : Invitation → Phase → Prop}
    (hst : ∀ a, statement a {} ph = .next ph' (some (.capacity (n.apply a.maxInvitees))))
    (h : ∀ r, K r ph') : TracksOn parent p K (updateInvitation p { maxInvitees := some n }) ph := by
  refine tracks_call fun t x _ hx => ?_
  cases hr : t.row p with
  | none => simp [hr] at hx
  | some r =>
    simp only [hr] at hx ⊢
    split at hx
    · rename_i hfits
      have hacc : (account p t).maxInvitees = r.maxInvitees := by simp [account, hr]
      rw [if_pos hfits]
      refine ⟨ph', follows_write (c := {}) (hst _) ?_, h x⟩
      rw [hacc]
      exact account_capacity hr
    · cases hx

theorem tracks_limit {input : UpdateInvitationPlusOneLimitInput} {e : Option EventId} :
    TracksOn parent input.id (fun _ ph => ∃ k, ph = .done (some (input.maxPlusOnes, k)))
      (limitTransaction input e) (.count input.maxPlusOnes) := by
  refine Tracks.bind <| tracks_ensureExists fun r hid _ => ?_
  refine Tracks.bind <| tracks_assertMatchesActiveEvent ?_
  split
  · trivial
  · refine Tracks.bind <| tracks_call fun t n _ hn => ?_
    cases hn
    rw [hid, ← InvitationTable.card_children]
    by_cases hlt : input.maxPlusOnes < (t.db.invitations.children input.id).card
    · exact ⟨_, .inl ⟨rfl, rfl⟩, by rw [if_pos hlt]; trivial⟩
    · refine ⟨_, follows_read (c := {}) (if_neg hlt), ?_⟩
      rw [if_neg hlt]
      exact tracks_capacity (fun _ => rfl) fun _ => ⟨_, rfl⟩

theorem tracks_attachPendingContact {payload : PendingUser} {K : Invitation → Phase → Prop}
    (h : ∀ r, K r ph) : TracksOn parent p K (attachPendingContact i payload) ph := by
  refine Tracks.bind <| tracks_quiet (fun _ => rfl) fun _ token _ _ =>
    tracks_call fun t x _ hx => ?_
  cases hr : t.row i with
  | none => simp [hr] at hx
  | some r => exact ⟨ph, .inl ⟨rfl, account_patch rfl⟩, h x⟩

theorem tracks_enqueue {topic : String} {fact : AnalyticsFact} {K : Unit → Phase → Prop}
    (h : K () ph) : TracksOn parent p K (enqueue ctx topic fact) ph := by
  unfold enqueue
  split
  · trivial
  · exact tracks_quiet (fun _ => rfl) fun _ _ _ _ => h

theorem tracks_createPlusOne {input : CreatePlusOneInput} {e : EventId} {actorId : UserId}
    {locale : Locale} : TracksOn parent p (fun _ ph => ph = .done none)
      (createPlusOneTransaction cfg ctx input e p actorId locale) .claim := by
  refine Tracks.bind <| tracks_ensureExists fun r hid _ => ?_
  split
  · trivial
  · refine Tracks.bind <| tracks_ensureUserCanManage fun staffManaged => ?_
    split
    · trivial
    · refine Tracks.bind <| tracks_call fun t n _ hn => ?_
      split at hn
      · rename_i hcap
        cases hn
        obtain ⟨r, hr, hpos⟩ := (Option.any_eq_true _ _).1 hcap
        have hpos : 0 < r.maxInvitees := by simpa using (Bool.and_eq_true_iff.1 hpos).2
        have hacc : (account p t).maxInvitees = r.maxInvitees := by simp [account, hr]
        refine ⟨.insert, follows_write (c := {}) (if_pos (hacc ▸ hpos)) ?_, ?_⟩
        · rw [if_pos hcap, hacc]
          exact account_capacity hr
        refine Tracks.bind <| tracks_quiet (fun _ => rfl) fun _ settings _ _ => ?_
        refine Tracks.bind <| tracks_observe fun u _ => ?_
        refine Tracks.bind <| tracks_call fun v child _ hx => ?_
        split at hx
        · rename_i h
          cases hx
          refine ⟨.done none, follows_write (c := ⟨v.db.invitations.next, ∅⟩)
            (if_neg next_notMem_children) ?_, ?_⟩
          · rw [dif_pos h]
            exact account_insert (r := Invitation.stamped _ v.now) h rfl
          refine Tracks.bind <| tracks_observe fun _ _ => ?_
          refine Tracks.bind <| tracks_attachPendingContact fun _ => ?_
          exact Tracks.bind <| tracks_enqueue rfl
        · cases hx
      · rename_i hcap
        cases hn
        refine ⟨.claim, .inl ⟨rfl, by rw [if_neg hcap]⟩, trivial⟩

theorem tracks_dropPendingContact {K : Unit → Phase → Prop} {r : Invitation} (h : K () ph) :
    TracksOn parent p K (dropPendingContact r) ph := by
  unfold dropPendingContact
  split
  · exact tracks_quiet (fun _ => rfl) fun _ _ _ _ => h
  · exact h

theorem tracks_deleteInvitation {rest : Finset Nat} {count : Nat} {K : Invitation → Phase → Prop}
    (hi : i ∈ rest) (hp : parent i = some p) (h : ∀ r, K r (.remove (rest.erase i) count)) :
    TracksOn parent p K (deleteInvitation i) (.remove rest count) := by
  refine tracks_call fun t x ht hx => ?_
  cases hr : t.row i with
  | none => simp [hr] at hx
  | some r =>
    have hrp := (ht i r hr).trans hp
    have hmem : i ∈ (account p t).children := mem_children.2 ⟨r, hr, hrp⟩
    exact ⟨_, follows_write (statement_remove (c := ⟨i, ∅⟩) hi hmem) (account_remove hr hrp), h x⟩

theorem tracks_release {count : Nat} {K : Invitation → Phase → Prop} (h : ∀ r, K r (.done none)) :
    TracksOn parent p K (updateInvitation p { maxInvitees := some (.increment count) })
      (.remove ∅ count) :=
  tracks_capacity (fun _ => statement_release) h

theorem tracks_publishGuestDeleted {actorId : UserId} {K : Unit → Phase → Prop} (h : K () ph) :
    TracksOn parent p K (publishGuestDeleted cfg ctx r actorId) ph := by
  unfold publishGuestDeleted
  split
  · exact tracks_quiet (fun _ => rfl) fun _ _ _ _ => h
  · exact h

theorem tracks_deletePlusOne {actorId : UserId} (hp : parent i = some p) :
    TracksOn parent p (fun _ ph => ph = .done none) (deletePlusOneTransaction cfg ctx i actorId)
      (.find i) := by
  refine Tracks.bind <| Tracks.bind <| tracks_call fun t x ht hx => ?_
  cases hx
  cases hr : t.row i with
  | none => exact ⟨_, .inl ⟨rfl, rfl⟩, trivial⟩
  | some r =>
    have hrp := (ht i r hr).trans hp
    refine ⟨_, follows_read (c := {}) (if_pos (mem_children.2 ⟨r, hr, hrp⟩)), ?_⟩
    have hpar : parentOfPlusOne r = .ok p := by
      simp [parentOfPlusOne, hrp]
      rfl
    refine Tracks.bind ?_
    rw [hpar]
    refine Tracks.bind <| tracks_ensureUserCanManage fun _ => ?_
    refine Tracks.bind <| tracks_dropPendingContact ?_
    refine Tracks.bind <| tracks_deleteInvitation (Finset.mem_singleton_self i) hp fun deleted => ?_
    rw [Finset.erase_singleton]
    refine Tracks.bind <| tracks_release fun _ => ?_
    exact Tracks.bind <| tracks_publishGuestDeleted rfl

theorem tracks_deleteChildren {count : Nat} {K : List Invitation → Phase → Prop}
    {rs : List Invitation} (hn : (rs.map (·.id)).Nodup) (hp : ∀ r ∈ rs, parent r.id = some p)
    (h : ∀ rows, K rows (.remove ∅ count)) :
    TracksOn parent p K (rs.mapM' deleteChild) (.remove (rs.map (·.id)).toFinset count) := by
  induction rs generalizing K with
  | nil => exact h []
  | cons r rs ih =>
    obtain ⟨hr, hn⟩ := List.nodup_cons.1 hn
    rw [Prog.mapM'_cons]
    refine Tracks.bind <| Tracks.bind <| tracks_dropPendingContact ?_
    refine tracks_deleteInvitation (by simp) (hp r (by simp)) fun x => ?_
    have hrest : ((r :: rs).map (·.id)).toFinset.erase r.id = (rs.map (·.id)).toFinset := by
      rw [List.map_cons, List.toFinset_cons, Finset.erase_insert (by simpa using hr)]
    rw [hrest]
    exact Tracks.bind <| ih hn (fun y hy => hp y (List.mem_cons_of_mem _ hy)) fun rows => h _

theorem tracks_deleteAllPlusOnes {actorId : UserId} :
    TracksOn parent p (fun _ ph => ph = .done none) (deleteAllTransaction cfg ctx p actorId)
      .list := by
  refine Tracks.bind <| tracks_ensureExists fun r _ _ => ?_
  refine Tracks.bind <| tracks_ensureUserCanManage fun _ => ?_
  refine Tracks.bind <| tracks_call fun t rs ht hrs => ?_
  cases hrs
  generalize hq : (fun x : Invitation => x.invitedByInvitationId = some p &&
    x.eventId = r.eventId) = q
  have hids := select_ids t.db.invitations q
  have hn : ((t.db.invitations.select q).map (·.id)).Nodup := hids ▸ nodup_ids _ _
  have hparent : ∀ x ∈ t.db.invitations.select q, t.row x.id = some x ∧
      x.invitedByInvitationId = some p := fun x hx => by
    obtain ⟨hrow, hqx⟩ := mem_select.1 hx
    subst hq
    exact ⟨hrow, by simpa using (Bool.and_eq_true_iff.1 hqx).1⟩
  have hsub : ((t.db.invitations.select q).map (·.id)).toFinset ⊆ t.db.invitations.children p := by
    intro j hj
    obtain ⟨x, hx, rfl⟩ := List.mem_map.1 (List.mem_toFinset.1 hj)
    obtain ⟨hrow, hxp⟩ := hparent x hx
    exact mem_children.2 ⟨x, hrow, hxp⟩
  have hcard : ((t.db.invitations.select q).map (·.id)).toFinset.card =
      (t.db.invitations.select q).length := by
    rw [List.toFinset_card_of_nodup hn, List.length_map]
  refine ⟨_, follows_read (statement_list
    (c := ⟨0, ((t.db.invitations.select q).map (·.id)).toFinset⟩) hsub), ?_⟩
  rw [hcard]
  refine Tracks.bind <| tracks_deleteChildren hn (fun x hx => ?_) fun rows => ?_
  · obtain ⟨hrow, hxp⟩ := hparent x hx
    rw [← ht x.id x hrow, hxp]
  · refine Tracks.bind <| tracks_release fun _ => ?_
    dsimp only
    split
    · exact Tracks.bind <| tracks_quiet (fun _ => rfl) fun _ _ _ _ => rfl
    · rfl

end

end InvitationService.ConcurrentLimit

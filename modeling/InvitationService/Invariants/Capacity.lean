import InvitationService.Invariants.Status

open Relation (ReflTransGen)

namespace InvitationService

open Resumption InvitationTable

/-! The plus-ones of `p` against the allowance `n`.  `createPlusOne` takes a unit of
`maxInvitees` for every plus-one, an RSVP takes none: `k` counts what RSVPs have stored, of
which `b` are part of the allowance already. -/

/-- The row of `p`, as long as it exists, has room for what the RSVPs left unpaid. -/
structure Balanced (p : Nat) (n : Int) (b : Nat) (t : InvitationTable) (k : Nat) : Prop where
  lt : p < t.next
  nonneg : 0 ≤ n
  base : b ≤ k
  count : ∀ r, t.row p = some r → r.maxInvitees + (t.children p).card = n + ((k : Int) - b)
  within : ∀ r, t.row p = some r → (k : Int) - b ≤ r.maxInvitees
  undecided : ∀ r, t.row p = some r → ¬ RsvpChoice.Final r.rsvpChoice → k = b

namespace Balanced

variable {p i k b : Nat} {n : Int} {t u : InvitationTable} {d : InvitationUpdate} {now : Nat}
  {r : Invitation}

theorem children_le (h : Balanced p n b t k) : ((t.children p).card : Int) ≤ n := by
  cases hr : t.row p with
  | none => simpa [children_of_row_none hr] using h.nonneg
  | some r =>
    have := h.count r hr
    have := h.within r hr
    omega

theorem of_row_none (h : Balanced p n b t k) (hn : t.next ≤ u.next) (hu : u.row p = none) :
    Balanced p n b u k where
  lt := h.lt.trans_le hn
  nonneg := h.nonneg
  base := h.base
  count r hr := by rw [hu] at hr; cases hr
  within r hr := by rw [hu] at hr; cases hr
  undecided r hr := by rw [hu] at hr; cases hr

theorem congr (h : Balanced p n b t k) (hn : t.next ≤ u.next) (hc : u.children p = t.children p)
    (hu : ∀ r, u.row p = some r → ∃ x, t.row p = some x ∧ r.maxInvitees = x.maxInvitees ∧
      r.rsvpChoice = x.rsvpChoice) : Balanced p n b u k where
  lt := h.lt.trans_le hn
  nonneg := h.nonneg
  base := h.base
  count r hr := by
    obtain ⟨x, hx, hm, -⟩ := hu r hr
    rw [hm, hc]
    exact h.count x hx
  within r hr := by
    obtain ⟨x, hx, hm, -⟩ := hu r hr
    rw [hm]
    exact h.within x hx
  undecided r hr := by
    obtain ⟨x, hx, -, hf⟩ := hu r hr
    rw [hf]
    exact h.undecided x hx

theorem patch (h : Balanced p n b t k)
    (hd : p = i → d.maxInvitees = none ∧ d.rsvpChoice = none) :
    Balanced p n b (t.patch i d now) k := by
  refine h.congr (Nat.le_refl _) children_patch fun r hr => ?_
  by_cases hi : p = i
  · obtain ⟨hm, hc⟩ := hd hi
    subst hi
    rw [patch_row_self] at hr
    obtain ⟨x, hx, rfl⟩ := Option.map_eq_some_iff.1 hr
    refine ⟨x, hx, ?_, ?_⟩
    · rw [InvitationUpdate.apply, hm]
      exact Int.add_zero _
    · rw [InvitationUpdate.apply, hc]
      rfl
  · rw [patch_row_of_ne hi] at hr
    exact ⟨r, hr, rfl, rfl⟩

theorem insert (h : Balanced p n b t k) {hp : t.ParentExists r.invitedByInvitationId}
    (hr : r.invitedByInvitationId ≠ some p) : Balanced p n b (t.insert r hp) k :=
  h.congr (Nat.le_succ _) (children_insert_of_ne hp hr) fun x hx => by
    rw [insert_row_of_lt hp h.lt] at hx
    exact ⟨x, hx, rfl, rfl⟩

theorem insertAll {rs : List Invitation} (h : Balanced p n b t k) (hu : InsertAll t rs u)
    (hrs : ∀ r ∈ rs, r.invitedByInvitationId ≠ some p) : Balanced p n b u k :=
  h.congr (by rw [hu.next_eq]; omega) (hu.children_of_ne hrs) fun x hx => by
    rw [hu.row_of_lt h.lt] at hx
    exact ⟨x, hx, rfl, rfl⟩

theorem reply {rs : List Invitation} {j : Nat} (h : Balanced p n b t k)
    (hr : t.row p = some r) (hu : ¬ RsvpChoice.Final r.rsvpChoice) (hd : d.maxInvitees = none)
    (hins : InsertAll (t.patch p d now) rs u) (hrs : ∀ r ∈ rs, r.invitedByInvitationId = some p)
    (hlen : (rs.length : Int) ≤ r.maxInvitees)
    (hfinal : ¬ RsvpChoice.Final (d.rsvpChoice.getD r.rsvpChoice) → rs = [])
    (hj : j = rs.length) : Balanced p n b u (k + j) := by
  have hk := h.undecided r hr hu
  have hrow : u.row p = some (d.apply now r) := by
    rw [hins.row_of_lt h.lt, patch_row_self, hr]
    rfl
  have hmax : (d.apply now r).maxInvitees = r.maxInvitees := by
    rw [InvitationUpdate.apply, hd]
    exact Int.add_zero _
  have hcard := hins.card_children hrs
  have hcount := h.count r hr
  rw [children_patch] at hcard
  refine ⟨h.lt.trans_le ?_, h.nonneg, h.base.trans (Nat.le_add_right _ _), fun x hx => ?_,
    fun x hx => ?_, fun x hx hx' => ?_⟩
  · rw [hins.next_eq, patch_next]
    omega
  · rw [hrow] at hx
    cases hx
    rw [hmax, hcard]
    omega
  · rw [hrow] at hx
    cases hx
    rw [hmax]
    omega
  · rw [hrow] at hx
    cases hx
    rw [hj, hfinal hx', List.length_nil, hk, Nat.add_zero]

theorem plusOne (h : Balanced p n b t k) {hp : (t.patch p (capacityUpdate (-1)) now).ParentExists
      r.invitedByInvitationId} (hrp : r.invitedByInvitationId = some p)
    (hover : ∀ x, t.row p = some x → (k : Int) - b < x.maxInvitees) :
    Balanced p n b ((t.patch p (capacityUpdate (-1)) now).insert r hp) k := by
  have hrow : ∀ x, ((t.patch p (capacityUpdate (-1)) now).insert r hp).row p = some x →
      ∃ y, t.row p = some y ∧ x = (capacityUpdate (-1)).apply now y := fun x hx => by
    rw [insert_row_of_lt hp h.lt, patch_row_self] at hx
    obtain ⟨y, hy, rfl⟩ := Option.map_eq_some_iff.1 hx
    exact ⟨y, hy, rfl⟩
  refine ⟨Nat.lt_succ_of_lt h.lt, h.nonneg, h.base, fun x hx => ?_, fun x hx => ?_, fun x hx => ?_⟩
  · obtain ⟨y, hy, rfl⟩ := hrow x hx
    have := h.count y hy
    rw [card_children_insert hp hrp, children_patch]
    simp only [InvitationUpdate.apply, Option.getD_some, CountUpdate.apply]
    omega
  · obtain ⟨y, hy, rfl⟩ := hrow x hx
    have := hover y hy
    simp only [InvitationUpdate.apply, Option.getD_some, CountUpdate.apply]
    omega
  · obtain ⟨y, hy, rfl⟩ := hrow x hx
    exact h.undecided y hy

theorem release {m : Nat} (h : Balanced p n b t k) (hn : t.next ≤ u.next)
    (hrow : u.row p = t.row p) (hcard : (u.children p).card + m = (t.children p).card) :
    Balanced p n b (u.patch p (capacityUpdate m) now) k := by
  have hrow : ∀ x, (u.patch p (capacityUpdate m) now).row p = some x →
      ∃ y, t.row p = some y ∧ x = (capacityUpdate m).apply now y := fun x hx => by
    rw [patch_row_self, hrow] at hx
    obtain ⟨y, hy, rfl⟩ := Option.map_eq_some_iff.1 hx
    exact ⟨y, hy, rfl⟩
  refine ⟨h.lt.trans_le hn, h.nonneg, h.base, fun x hx => ?_, fun x hx => ?_, fun x hx => ?_⟩
  · obtain ⟨y, hy, rfl⟩ := hrow x hx
    have := h.count y hy
    rw [children_patch]
    simp only [InvitationUpdate.apply, Option.getD_some, CountUpdate.apply]
    omega
  · obtain ⟨y, hy, rfl⟩ := hrow x hx
    have := h.within y hy
    simp only [InvitationUpdate.apply, Option.getD_some, CountUpdate.apply]
    omega
  · obtain ⟨y, hy, rfl⟩ := hrow x hx
    exact h.undecided y hy

theorem deleted {q m : Nat} (h : Balanced p n b t k) (hn : t.next ≤ u.next)
    (hsame : (u.row p).isSome → u.row p = t.row p)
    (hown : (u.row p).isSome → p = q → (u.children p).card + m = (t.children p).card)
    (hother : (u.row p).isSome → p ≠ q → u.children p = t.children p) :
    Balanced p n b (u.patch q (capacityUpdate m) now) k := by
  cases hrow : u.row p with
  | none =>
    refine h.of_row_none hn ?_
    by_cases hp : p = q
    · subst hp
      rw [patch_row_self, hrow]
      rfl
    · rwa [patch_row_of_ne hp]
  | some x =>
    have hsome : (u.row p).isSome := by rw [hrow]; rfl
    by_cases hp : p = q
    · subst hp
      exact h.release hn (hsame hsome) (hown hsome rfl)
    · exact (h.congr hn (hother hsome hp) fun y hy => ⟨y, hsame hsome ▸ hy, rfl, rfl⟩).patch
        fun hi => absurd hi hp

theorem limit {m : Int} (h : Balanced p n b t k) (hm : ((t.children p).card : Int) ≤ m) :
    Balanced p m k (t.patch p (limitUpdate (m - (t.children p).card)) now) k := by
  have hrow : ∀ x, (t.patch p (limitUpdate (m - (t.children p).card)) now).row p = some x →
      x.maxInvitees = m - (t.children p).card := fun x hx => by
    rw [patch_row_self] at hx
    obtain ⟨y, hy, rfl⟩ := Option.map_eq_some_iff.1 hx
    rfl
  refine ⟨h.lt, by omega, Nat.le_refl _, fun x hx => ?_, fun x hx => ?_, fun _ _ _ => rfl⟩
  · rw [hrow x hx, children_patch]
    omega
  · rw [hrow x hx]
    omega

end Balanced

variable {cfg : Config} {c : Call} {a w v : World} {p b k : Nat} {n : Int} {t : InvitationTable}

/-- The calls of a run that uses plus-ones. -/
def Call.Assigns : Call → Prop
  | .replyInvitation .. | .createPlusOnesInvitation .. | .removePlusOneInvitation ..
  | .removeAllPlusOnesByInvitationId .. => True
  | _ => False

theorem length_slicePrefix {α : Type} {m : Int} (hm : 0 ≤ m) (xs : List α) :
    ((slicePrefix m xs).length : Int) ≤ m := by
  rw [slicePrefix, if_pos hm, List.length_take]
  omega

theorem GuestWrite.PlanSpec.length_le {r : Invitation} {input : RSVPInput}
    {plan : GuestWrite.ReplyPlan} (h : GuestWrite.PlanSpec r input plan) (hm : 0 ≤ r.maxInvitees) :
    (plan.allowedPlusOnes.length : Int) ≤ r.maxInvitees := by
  rw [h.allowed]
  split
  · exact length_slicePrefix hm _
  · simpa using hm

theorem GuestWrite.PlanSpec.final_of_allowed {r : Invitation} {input : RSVPInput}
    {plan : GuestWrite.ReplyPlan} (h : GuestWrite.PlanSpec r input plan)
    (hf : ¬ RsvpChoice.Final (some plan.decision.newChoice)) : plan.allowedPlusOnes = [] := by
  rw [h.newChoice] at hf
  rw [h.allowed]
  cases hc : input.choice with
  | yes => exact absurd (.inl (congrArg some hc)) hf
  | no => rfl
  | maybe => rfl

theorem Balanced.replied {input : RSVPInput} {r r' : Invitation} {plan : GuestWrite.ReplyPlan}
    {now : Nat} {l : List String} (h : Balanced p n b w.db.invitations k)
    (hspec : GuestWrite.PlanSpec r input plan) (hid : r.id = input.invitationId)
    (hr' : w.row input.invitationId = some r') (hcore : r'.core = r.core)
    (hins : InsertAll (w.db.invitations.patch input.invitationId
        (GuestWrite.replyUpdate cfg r plan now input.replyInput) w.now)
      (plan.allowedPlusOnes.map fun x => (GuestWrite.replyPlusOne cfg r now l x).stamped w.now) t) :
    Balanced p n b t (k + if p = input.invitationId then plan.allowedPlusOnes.length else 0) := by
  have hpar : ∀ x ∈ plan.allowedPlusOnes.map (fun x => (GuestWrite.replyPlusOne cfg r now l
      x).stamped w.now), x.invitedByInvitationId = some input.invitationId := by
    intro x hx
    obtain ⟨y, -, rfl⟩ := List.mem_map.1 hx
    exact congrArg some hid
  by_cases hp : p = input.invitationId
  · rw [if_pos hp]
    subst hp
    have hund : ¬ RsvpChoice.Final r'.rsvpChoice := by
      rw [core_rsvpChoice hcore]
      exact fun hf => hf.elim hspec.undecided.1 hspec.undecided.2
    have hmax := core_maxInvitees hcore
    have hwithin := h.within r' hr'
    have hbase := h.base
    refine h.reply hr' hund rfl hins hpar ?_ ?_ (by simp)
    · rw [List.length_map, hmax]
      exact hspec.length_le (by omega)
    · intro hf
      rw [hspec.final_of_allowed hf, List.map_nil]
  · rw [if_neg hp, Nat.add_zero]
    refine (h.patch fun hi => absurd hi hp).insertAll hins fun x hx => ?_
    rw [hpar x hx]
    exact fun hi => hp (Option.some.inj hi).symm

/-- A change by one of these calls keeps the balance, unless it takes the last unit that
RSVPs have left unpaid. -/
theorem Balanced.change {o : List OutboxRow} (hch : Change Kept cfg c a w t o) (hc : c.Assigns)
    (h : Balanced p n b w.db.invitations k)
    (hover : ∀ input user locale r, c = .createPlusOnesInvitation input user locale → Kept a w →
      GuestWrite.Admits cfg input user w p r → (k : Int) - b < r.maxInvitees) :
    Balanced p n b t (k + plusOnesStored p o) := by
  cases hch with
  | same ho => rwa [(ho _).1, Nat.add_zero]
  | @create r _ _ hcr _ => cases c <;> first | exact hcr.elim | exact hc.elim
  | @reply input locale r r' plan now l t u o hcall _ hsnap hr' hplan hins hu ho =>
    have hid : r.id = input.invitationId := hsnap.elim fun s hs => s.db.invitations.id_eq hs.1
    have ht : Balanced p n b t (k + plusOnesStored p o) := by
      rw [(ho _).1]
      exact h.replied (GuestWrite.planReply_spec hplan) hid hr' (hsnap.core_eq hr') hins
    rcases hu with rfl | ⟨token, payload, -, -, -, rfl⟩
    · exact ht
    · exact ht.patch fun _ => ⟨rfl, rfl⟩
  | @plusOne input user locale q r child hpar token payload o auto hcall ha hadm hchild _ _ ho =>
    rw [(ho _).1, Nat.add_zero]
    have hq : child.invitedByInvitationId = some q := by rw [hchild]; rfl
    refine Balanced.patch ?_ fun hi => absurd h.lt (by omega)
    -- a plus-one of `p` costs a unit of `p`, one of another parent leaves `p` alone
    by_cases hp : p = q
    · subst hp
      refine h.plusOne hq fun x hx => ?_
      have hxr : x = r := Option.some.inj (hx.symm.trans hadm.row)
      exact hxr ▸ hover input user locale r hcall ha hadm
    · refine (h.patch fun hi => absurd hi hp).insert ?_
      rw [hq]
      exact fun hi => hp (Option.some.inj hi).symm
  | details hcall _ => rw [hcall] at hc; exact hc.elim
  | @deleteOne i q user r hcall hr hq =>
    rw [plusOnesStored_nil, Nat.add_zero]
    refine h.deleted (m := 1) (Nat.le_refl _) (fun hsome => ?_) (fun hsome hp => ?_)
      fun hsome hp => ?_
    · obtain ⟨x, hx⟩ := Option.isSome_iff_exists.1 hsome
      rw [hx, row_of_remove hx]
    · subst hp
      have hmem : i ∈ w.db.invitations.children p := mem_children.2 ⟨r, hr, hq⟩
      have hpos := Finset.card_pos.2 ⟨i, hmem⟩
      rw [children_remove hsome, Finset.card_erase_of_mem hmem]
      omega
    · rw [children_remove hsome, Finset.erase_eq_of_notMem]
      intro hmem
      obtain ⟨y, hy, hyp⟩ := mem_children.1 hmem
      obtain rfl : r = y := Option.some.inj (hr.symm.trans hy)
      exact hp (Option.some.inj (hyp.symm.trans hq))
  | @deleteAll q user r is t hcall hr his hrem =>
    rw [plusOnesStored_nil, Nat.add_zero]
    have hpar : ∀ i ∈ is, ∀ x, w.db.invitations.row i = some x →
        x.invitedByInvitationId = some q := by
      intro i hi x hx
      rw [his] at hi
      obtain ⟨y, hy, rfl⟩ := List.mem_map.1 hi
      obtain ⟨hy, hsel⟩ := mem_select.1 hy
      obtain rfl : x = y := Option.some.inj (hx.symm.trans hy)
      simp only [Bool.and_eq_true, decide_eq_true_eq] at hsel
      exact hsel.1
    refine h.deleted hrem.next_eq.ge hrem.row_of_isSome (fun hsome hp => ?_) fun hsome hp =>
      hrem.children_of_ne hsome fun i hi y hy hyp =>
        hp (Option.some.inj (hyp.symm.trans (hpar i hi y hy)))
    subst hp
    exact hrem.card_children hsome hpar
  -- of the rest only `send` is a change by such a call
  | publicRsvp hcall _ _ _ => rw [hcall] at hc; exact hc.elim
  | attach hcall _ _ _ _ => rw [hcall] at hc; exact hc.elim
  | limit hcall _ _ => rw [hcall] at hc; exact hc.elim
  | reject hj _ _ => cases c <;> first | exact hj.elim | exact hc.elim
  | link hcall => rw [hcall] at hc; exact hc.elim
  | send _ _ _ _ _ _ =>
    rw [plusOnesStored_nil, Nat.add_zero]
    exact h.patch fun _ => ⟨rfl, rfl⟩
  | stage hcall _ _ _ => rw [hcall] at hc; exact hc.elim
  | remove hr => cases c <;> first | exact hr.elim | exact hc.elim
  | removeMany hcall _ => rw [hcall] at hc; exact hc.elim

abbrev storedPlusOnes (p : Nat) (w : World) : Nat := plusOnesStored p w.db.outbox

abbrev InBalance (p : Nat) (n : Int) (b : Nat) (w : World) : Prop :=
  Balanced p n b w.db.invitations (storedPlusOnes p w)

theorem InBalance.action (hA : Action Kept cfg c a w v) (hc : c.Assigns) (h : InBalance p n b w)
    (hover : ∀ input user locale r, c = .createPlusOnesInvitation input user locale → Kept a w →
      GuestWrite.Admits cfg input user w p r → (storedPlusOnes p w : Int) - b < r.maxInvitees) :
    InBalance p n b v := by
  cases hA with
  | step _ hch ho _ _ _ =>
    rw [InBalance, storedPlusOnes, ho, plusOnesStored_append]
    exact h.change hch hc hover
  | project hp =>
    have hp := hp.projects
    cases c <;> first | exact hp.elim | exact hc.elim
  | approve _ _ _ _ => exact h.patch fun _ => ⟨rfl, rfl⟩
  | confirm _ _ _ _ _ _ _ => exact h
  | resent _ => exact h
  | reminded _ => exact h
  | ticket _ _ => exact h

theorem storedPlusOnes_action (hA : Action Kept cfg c a w v) (hc : c.Assigns)
    (hr : ¬ c.Replies) : storedPlusOnes p v = storedPlusOnes p w := by
  cases hA with
  | step _ hch ho _ _ _ =>
    rw [storedPlusOnes, ho, plusOnesStored_append]
    generalize v.db.invitations = t at hch
    cases hch with
    | same ho => rw [(ho _).1, Nat.add_zero]
    | create hcr _ => cases c <;> first | exact hcr.elim | exact hc.elim
    | reply hcall _ _ _ _ _ _ _ => rw [hcall] at hr; exact absurd trivial hr
    | plusOne _ _ _ _ _ _ _ ho => rw [(ho _).1, Nat.add_zero]
    | publicRsvp hcall _ _ _ => rw [hcall] at hc; exact hc.elim
    | _ => rfl
  | project hp => rw [storedPlusOnes, hp.outbox]
  | _ => rfl

theorem GuestWrite.Admits.of_kept {input : CreatePlusOneInput} {user : UserId} {r : Invitation}
    (h : GuestWrite.Admits cfg input user w p r) (hk : Kept a w) :
    ∃ r', GuestWrite.Admits cfg input user a p r' ∧ r'.maxInvitees = r.maxInvitees := by
  have hrow := hk.row p
  rw [h.row] at hrow
  obtain ⟨r', hr', hc⟩ := Option.map_eq_some_iff.1 hrow.symm
  have hauth : GuestWrite.authority cfg a.db user r' = GuestWrite.authority cfg w.db user r := by
    have hperm : GuestWrite.permissionsOf cfg a.db = GuestWrite.permissionsOf cfg w.db := by
      unfold GuestWrite.permissionsOf
      rw [hk.access, hk.roles]
    change GuestWrite.authority cfg a.db user r'.core = GuestWrite.authority cfg w.db user r.core
    rw [hc, GuestWrite.authority, GuestWrite.authority, hperm]
  refine ⟨r', ⟨?_, h.names, hr', ?_, ?_⟩, core_maxInvitees hc⟩
  · rw [core_eventId hc]
    exact h.ids
  · rw [hauth]
    exact h.manager
  · rw [core_maxInvitees hc]
    exact h.capacity

def limitSet (p : Nat) (x : CallRecord) : Option Int :=
  match x.call.call, x.outcome with
  | .updateInvitationPlusOneLimit input _, .ok () =>
    if input.id = p then some input.maxPlusOnes else none
  | _, _ => none

/-- The allowance in force after the calls `h`: `n`, until a limit is set. -/
def allowance (p : Nat) (n : Int) (h : List CallRecord) : Int :=
  h.foldl (fun m x => (limitSet p x).getD m) n

/-- The plus-ones stored by RSVPs that the allowance in force already counts. -/
def baseline (p : Nat) (h : List CallRecord) : Nat :=
  h.foldl (fun m x => if (limitSet p x).isSome then storedPlusOnes p x.before else m) 0

/-- After the calls `h`, the call `x` is a request for a plus-one that is granted although
RSVPs have stored all the plus-ones that `maxInvitees` still shows. -/
def Overdraws (cfg : Config) (p : Nat) (h : List CallRecord) (x : CallRecord) : Prop :=
  ∃ input user locale r, x.call.call = .createPlusOnesInvitation input user locale ∧
    GuestWrite.Admits cfg input user x.before p r ∧
    r.maxInvitees ≤ (storedPlusOnes p x.before : Int) - baseline p h

def Call.UsesPlusOnes : Call → Prop
  | .updateInvitationPlusOneLimit .. => True
  | c => c.Assigns

theorem limit_of_exec {input : UpdateInvitationPlusOneLimitInput} {e : Option EventId}
    {q : Request} {r : Except Exception Unit} {s : World}
    (hq : q.call = .updateInvitationPlusOneLimit input e)
    (h : Prog.Exec (ReflTransGen (service cfg).env) ((service cfg).exec q)
      ((service cfg).arrive q s) r w) :
    (∀ e, r = .error e → w.db = s.db) ∧ (r = .ok () →
      ((s.db.invitations.children input.id).card : Int) ≤ input.maxPlusOnes ∧
      ∃ now, w.db = (s.setInvitations (s.db.invitations.patch input.id (limitUpdate
        (input.maxPlusOnes - (s.db.invitations.children input.id).card)) now)).db) := by
  obtain ⟨c, ctx⟩ := q
  obtain rfl := hq
  let Q : Except Exception Unit → World → Prop := fun r w =>
    (∀ e, r = .error e → w.db = s.db) ∧ (r = .ok () →
      ((s.db.invitations.children input.id).card : Int) ≤ input.maxPlusOnes ∧
      ∃ now, w.db = (s.setInvitations (s.db.invitations.patch input.id (limitUpdate
        (input.maxPlusOnes - (s.db.invitations.children input.id).card)) now)).db)
  have hg : ((service cfg).exec ⟨.updateInvitationPlusOneLimit input e, ctx⟩).Guarantees
      (fun s t => t.db = s.db) (fun _ _ => True) Q
      ((service cfg).arrive ⟨.updateInvitationPlusOneLimit input e, ctx⟩ s) := by
    refine Prog.Guarantees.bind ?_
    unfold AdminWrite.updatePlusOneLimit
    split
    · exact ⟨fun _ _ => rfl, nofun⟩
    · refine guarantees_transaction_of_ends (fun t ht => ?_) fun t u e ht => ⟨fun _ _ => ht, nofun⟩
      have ht : t.db = s.db := ht
      refine AdminWrite.ends_limitTransaction fun r x _ hle => ⟨nofun, fun _ => ?_⟩
      rw [ht] at hle
      exact ⟨hle, t.now, by simp only [World.setInvitations, ht]⟩
  exact h.ends hg fun _ _ => environments_db

theorem InBalance.of_db (h : InBalance p n b w) (hdb : v.db = w.db) : InBalance p n b v := by
  rwa [InBalance, storedPlusOnes, hdb]

theorem InBalance.exec {q : Request} {r : Except Exception Unit} {s : World}
    (hex : Prog.Exec (ReflTransGen (service cfg).env) ((service cfg).exec q)
      ((service cfg).arrive q s) r w) (hc : q.call.Assigns) (h : InBalance p n b s)
    (hover : ∀ input user locale r, q.call = .createPlusOnesInvitation input user locale →
      GuestWrite.Admits cfg input user s p r → (storedPlusOnes p s : Int) - b < r.maxInvitees) :
    InBalance p n b w := by
  -- until the request for a plus-one is granted, nothing has been stored
  refine (hex.sound (I := fun w => InBalance p n b w ∧
    (¬ q.call.Replies → storedPlusOnes p w = storedPlusOnes p s)) (service_guarantees q s)
    ⟨h.of_db rfl, fun _ => rfl⟩ ?_ ?_).1.1
  · exact System.env_star fun t u ht he => ⟨ht.1.of_db (environment_db he), fun hr => by
      rw [storedPlusOnes, environment_db he]
      exact ht.2 hr⟩
  · rintro t u ⟨ht, hs⟩ hA
    refine ⟨ht.action hA hc fun input user locale r hcall ha hadm => ?_, fun hr =>
      (storedPlusOnes_action hA hc hr).trans (hs hr)⟩
    obtain ⟨r', hadm', hmax⟩ := hadm.of_kept ha
    rw [hs (by rw [hcall]; exact id), ← hmax]
    exact hover input user locale r' hcall
      ⟨hadm'.ids, hadm'.names, hadm'.row, hadm'.manager, hadm'.capacity⟩

theorem limitSet_of_assigns {x : CallRecord} (hc : x.call.call.Assigns) : limitSet p x = none := by
  obtain ⟨s, ⟨c, ctx⟩, r⟩ := x
  cases c <;> first | rfl | exact hc.elim

theorem InBalance.call {x : CallRecord}
    (hex : Prog.Exec (ReflTransGen (service cfg).env) ((service cfg).exec x.call)
      ((service cfg).arrive x.call x.before) x.outcome w) (hc : x.call.call.UsesPlusOnes)
    (h : InBalance p n b x.before)
    (hover : ∀ input user locale r, x.call.call = .createPlusOnesInvitation input user locale →
      GuestWrite.Admits cfg input user x.before p r →
        (storedPlusOnes p x.before : Int) - b < r.maxInvitees) :
    InBalance p ((limitSet p x).getD n)
      (if (limitSet p x).isSome then storedPlusOnes p x.before else b) w := by
  by_cases ha : x.call.call.Assigns
  · rw [limitSet_of_assigns ha]
    exact h.exec hex ha hover
  · obtain ⟨s, ⟨c, ctx⟩, r⟩ := x
    cases c with
    | updateInvitationPlusOneLimit input e =>
      obtain ⟨herr, hok⟩ := limit_of_exec rfl hex
      cases r with
      | error er => exact h.of_db (herr er rfl)
      | ok _ =>
        obtain ⟨hle, now, hdb⟩ := hok rfl
        have hk : storedPlusOnes p w = storedPlusOnes p s := by rw [storedPlusOnes, hdb]; rfl
        have ht : w.db.invitations = s.db.invitations.patch input.id (limitUpdate
            (input.maxPlusOnes - (s.db.invitations.children input.id).card)) now := by rw [hdb]; rfl
        by_cases hp : input.id = p
        · simp only [limitSet, hp, if_true, Option.getD_some, Option.isSome_some, InBalance, hk]
          rw [ht]
          subst hp
          exact h.limit hle
        · simp only [limitSet, hp, if_false, Option.getD_none, Option.isSome_none, InBalance, hk]
          rw [ht]
          exact h.patch fun hi => absurd hi.symm hp
    | _ => exact absurd hc ha

/-- A run in which no plus-one is overdrawn keeps the balance. -/
theorem InBalance.run {s : World} {h : List CallRecord} (hs : (service cfg).Serial s h w)
    (h₀ : InBalance p n 0 s) (hc : ∀ x ∈ h, x.call.call.UsesPlusOnes)
    (hover : ∀ g x k, h = g ++ x :: k → ¬ Overdraws cfg p g x) :
    InBalance p (allowance p n h) (baseline p h) w := by
  induction hs with
  | start => exact h₀
  | env _ he ih => exact (ih hc hover).of_db (environment_db he)
  | @call g t u q r hrun hen hex ih =>
    have hg := ih (fun x hx => hc x (List.mem_append_left _ hx)) fun g' x k hk =>
      hover g' x (k ++ [⟨t, q, r⟩]) (by simp [hk])
    rw [allowance, baseline, List.foldl_append, List.foldl_append]
    refine InBalance.call (x := ⟨t, q, r⟩) hex (hc _ (by simp)) hg
      fun input user locale y hcall hadm => ?_
    by_contra hlt
    exact hover g ⟨t, q, r⟩ [] rfl ⟨input, user, locale, y, hcall, hadm, Int.not_lt.1 hlt⟩

def FactsInv (w : World) : Prop := ∀ i, w.db.invitations.next ≤ i → storedPlusOnes i w = 0

theorem Change.stored_of_next_le {o : List OutboxRow} (h : Change Kept cfg c a w t o) {i : Nat}
    (hi : t.next ≤ i) : plusOnesStored i o = 0 := by
  have hle := h.next_le
  cases h with
  | same ho => exact (ho i).1
  | create _ ho => exact (ho i).1
  | reply _ _ _ hr _ _ _ ho =>
    have := w.db.invitations.id_lt hr
    rw [(ho i).1, if_neg (by omega)]
  | plusOne _ _ _ _ _ _ _ ho => exact (ho i).1
  | publicRsvp _ _ hins ho =>
    have := hins.next_eq
    rw [insert_next] at this
    rw [(ho i).1, if_neg (by omega)]
  | _ => rfl

theorem FactsInv.action (hA : Action Kept cfg c a w v) (hw : FactsInv w) : FactsInv v := by
  intro i hi
  cases hA with
  | step _ hch ho _ _ _ =>
    rw [storedPlusOnes, ho, plusOnesStored_append, hch.stored_of_next_le hi]
    exact hw i (hch.next_le.trans hi)
  | project hp =>
    rw [storedPlusOnes, hp.outbox]
    exact hw i (by rwa [hp.invitations] at hi)
  | _ => exact hw i hi

def Opens (p : Nat) (n : Int) (x : CallRecord) : Prop :=
  x.before.db.invitations.next = p ∧
    ((∃ input user, x.call.call = .createInvitation input user ∧ n = input.maxInvitees.getD 0) ∨
      ∃ input locale, x.call.call = .createInvitationFromRsvp input locale ∧
        n = input.plusOnes.length)

def Opening (p : Nat) (n : Int) (c : Call) (w : World) : Prop :=
  (w.db.invitations.next = p ∧ storedPlusOnes p w = 0) ∨
    (InBalance p n 0 w ∧ ∀ input user, c = .createInvitation input user →
      input.invitedByInvitationId ≠ some p)

theorem Opening.create {input : InvitationCreateInput} {user : UserId} {r : Invitation}
    {h : w.db.invitations.ParentExists r.invitedByInvitationId} {o : List OutboxRow}
    (hc : c = .createInvitation input user) (hn : n = input.maxInvitees.getD 0)
    (hr : c.Creates cfg w.now r) (ho : plusOnesStored p o = 0) (hw : Opening p n c w)
    (ht : v.db.invitations = w.db.invitations.insert r h) (hv : v.db.outbox = w.db.outbox ++ o) :
    Opening p n c v := by
  have hk : storedPlusOnes p v = storedPlusOnes p w := by
    rw [storedPlusOnes, hv, plusOnesStored_append, ho, Nat.add_zero]
  subst hc
  obtain ⟨e, settings, -, hnonneg, rfl⟩ := hr
  refine .inr ?_
  rw [InBalance, hk, ht]
  rcases hw with ⟨rfl, hzero⟩ | ⟨hb, hpar⟩
  · have hne : input.invitedByInvitationId ≠ some w.db.invitations.next := fun hi =>
      absurd (ParentExists.lt (fun q hq => h q (hi.trans hq))) (Nat.lt_irrefl _)
    have hrow := insert_row_next h
    have hcard : ((w.db.invitations.insert _ h).children w.db.invitations.next).card = 0 := by
      rw [children_insert_of_ne h hne, children_of_row_none (row_next _), Finset.card_empty]
    refine ⟨⟨Nat.lt_succ_self _, hn ▸ hnonneg, Nat.zero_le _, fun x hx => ?_, fun x hx => ?_,
      fun _ _ _ => hzero⟩, fun input' user' hc => by cases hc; exact hne⟩
    · rw [hrow] at hx
      cases hx
      rw [hcard, hzero, hn]
      simp [AdminWrite.createdInvitation]
    · rw [hrow] at hx
      cases hx
      rw [hzero]
      simpa [AdminWrite.createdInvitation] using hnonneg
  · exact ⟨hb.insert (hpar input user rfl), hpar⟩

theorem Opening.publicRsvp {input : PublicRsvpInput} {locale : Locale}
    {settings : Option EventSettings} {l : List String} {note : Option String} {r : Invitation}
    {h : w.db.invitations.ParentExists r.invitedByInvitationId} {o : List OutboxRow}
    (hc : c = .createInvitationFromRsvp input locale) (hn : n = input.plusOnes.length)
    (hr : r = (GuestWrite.publicInvitee cfg input settings l note w.now).stamped w.now)
    (hins : InsertAll (w.db.invitations.insert r h) (input.plusOnes.map fun p =>
      (GuestWrite.publicPlusOne cfg input w.db.invitations.next l w.now p).stamped w.now) t)
    (ho : plusOnesStored p o = if p = w.db.invitations.next then input.plusOnes.length else 0)
    (hw : Opening p n c w) (ht : v.db.invitations = t) (hv : v.db.outbox = w.db.outbox ++ o) :
    Opening p n c v := by
  have hk : storedPlusOnes p v = storedPlusOnes p w +
      if p = w.db.invitations.next then input.plusOnes.length else 0 := by
    rw [storedPlusOnes, hv, plusOnesStored_append, ho]
  have hpar : ∀ x ∈ input.plusOnes.map (fun p => (GuestWrite.publicPlusOne cfg input
      w.db.invitations.next l w.now p).stamped w.now),
      x.invitedByInvitationId = some w.db.invitations.next := by
    intro x hx
    obtain ⟨y, -, rfl⟩ := List.mem_map.1 hx
    rfl
  subst hc
  refine .inr ⟨?_, nofun⟩
  rw [InBalance, hk, ht]
  rcases hw with ⟨rfl, hzero⟩ | ⟨hb, -⟩
  · have hrow : t.row w.db.invitations.next = some (r.withId w.db.invitations.next) := by
      rw [hins.row_of_lt (Nat.lt_succ_self _)]
      exact insert_row_next h
    have hnone : r.invitedByInvitationId ≠ some w.db.invitations.next := by rw [hr]; nofun
    have hcard : (t.children w.db.invitations.next).card = input.plusOnes.length := by
      rw [hins.card_children hpar, children_insert_of_ne h hnone,
        children_of_row_none (row_next _), Finset.card_empty, Nat.zero_add, List.length_map]
    have hmax : r.maxInvitees = input.plusOnes.length := by rw [hr]; rfl
    rw [hzero, if_pos rfl, Nat.zero_add]
    refine ⟨?_, by omega, Nat.zero_le _, fun x hx => ?_, fun x hx => ?_, fun x hx hf => ?_⟩
    · have := hins.next_eq
      rw [insert_next] at this
      omega
    · rw [hrow] at hx
      cases hx
      rw [Invitation.withId_maxInvitees, hmax, hcard]
      omega
    · rw [hrow] at hx
      cases hx
      rw [Invitation.withId_maxInvitees, hmax]
      omega
    · rw [hrow] at hx
      cases hx
      exact absurd (.inl (by rw [hr]; rfl)) hf
  · have hne : p ≠ w.db.invitations.next := Nat.ne_of_lt hb.lt
    rw [if_neg hne, Nat.add_zero]
    refine (hb.insert (by rw [hr]; nofun)).insertAll hins fun x hx => ?_
    rw [hpar x hx]
    exact fun hi => hne (Option.some.inj hi).symm

theorem Opening.patch {i : Nat} {d : InvitationUpdate} {now : Nat} (hw : Opening p n c w)
    (hm : d.maxInvitees = none) (hr : d.rsvpChoice = none)
    (ht : v.db.invitations = w.db.invitations.patch i d now) (ho : v.db.outbox = w.db.outbox) :
    Opening p n c v := by
  rcases hw with ⟨hn, hz⟩ | ⟨hb, hpar⟩
  · exact .inl ⟨by rw [ht]; exact hn, by rw [storedPlusOnes, ho]; exact hz⟩
  · refine .inr ⟨?_, hpar⟩
    rw [InBalance, storedPlusOnes, ho, ht]
    exact hb.patch fun _ => ⟨hm, hr⟩

theorem Opening.congr (hw : Opening p n c w) (ht : v.db.invitations = w.db.invitations)
    (hk : storedPlusOnes p v = storedPlusOnes p w) : Opening p n c v := by
  rw [Opening, InBalance, ht, hk]
  exact hw

def Call.IsOpening : Call → Prop
  | .createInvitation .. | .createInvitationFromRsvp .. => True
  | _ => False

theorem Opening.action {x : CallRecord} (hx : Opens p n x)
    (hA : Action Kept cfg x.call.call a w v) (hw : Opening p n x.call.call w) :
    Opening p n x.call.call v := by
  have hc : x.call.call.IsOpening := by
    rcases hx.2 with ⟨_, _, hc, -⟩ | ⟨_, _, hc, -⟩ <;> rw [hc] <;> trivial
  cases hA with
  | step _ hch ho _ _ _ =>
    generalize ht : v.db.invitations = t at hch
    cases hch with
    | same hz =>
      exact hw.congr ht (by rw [storedPlusOnes, ho, plusOnesStored_append, (hz p).1]; rfl)
    | create hcr hz =>
      rcases hx.2 with ⟨input, user, hcall, hn⟩ | ⟨_, _, hcall, -⟩
      · exact hw.create hcall hn hcr (hz p).1 ht ho
      · rw [hcall] at hcr
        exact hcr.elim
    | publicRsvp hcall hr hins hz =>
      rcases hx.2 with ⟨_, _, hcall', -⟩ | ⟨input, locale, hcall', hn⟩
      · rw [hcall] at hcall'
        cases hcall'
      · rw [hcall] at hcall'
        cases hcall'
        exact hw.publicRsvp hcall hn hr hins (hz p).1 ht ho
    | attach _ _ _ _ _ => exact hw.patch rfl rfl ht (by rw [ho, List.append_nil])
    | send _ _ _ _ _ _ => exact hw.patch rfl rfl ht (by rw [ho, List.append_nil])
    | reply hcall _ _ _ _ _ _ _ => rw [hcall] at hc; exact hc.elim
    | plusOne _ hcall _ _ _ _ _ _ => rw [hcall] at hc; exact hc.elim
    | details hcall _ => rw [hcall] at hc; exact hc.elim
    | deleteOne hcall _ _ => rw [hcall] at hc; exact hc.elim
    | deleteAll hcall _ _ _ => rw [hcall] at hc; exact hc.elim
    | limit hcall _ _ => rw [hcall] at hc; exact hc.elim
    | reject hj _ _ =>
      generalize x.call.call = c at hj hc; cases c <;> first | exact hj.elim | exact hc.elim
    | link hcall => rw [hcall] at hc; exact hc.elim
    | stage hcall _ _ _ => rw [hcall] at hc; exact hc.elim
    | remove hr =>
      generalize x.call.call = c at hr hc; cases c <;> first | exact hr.elim | exact hc.elim
    | removeMany hcall _ => rw [hcall] at hc; exact hc.elim
  | project hp => exact hw.congr hp.invitations (by rw [storedPlusOnes, hp.outbox])
  | approve _ _ _ _ => exact hw.patch rfl rfl rfl rfl
  | confirm _ _ _ _ _ _ _ => exact hw.congr rfl rfl
  | resent _ => exact hw.congr rfl rfl
  | reminded _ => exact hw.congr rfl rfl
  | ticket _ _ => exact hw.congr rfl rfl

theorem InBalance.of_opening {h : List CallRecord} {x : CallRecord}
    (hs : (service cfg).Serial .empty (h ++ [x]) w) (hx : Opens p n x)
    (hrow : (w.row p).isSome) : InBalance p n 0 w := by
  obtain ⟨hs, -, u, hex, hu⟩ := hs.last
  have hfacts : FactsInv x.before := by
    refine Serial.invariant_of_actions (I := FactsInv) hs (fun _ _ => rfl) (fun s t hi he => ?_)
      (fun _ _ hi => hi) fun _ _ _ _ hi hA => hi.action hA
    intro i hn
    rw [environment_db he] at hn
    rw [storedPlusOnes, environment_db he]
    exact hi i hn
  have hopen := (hex.sound (I := Opening p n x.call.call) (service_guarantees x.call x.before)
    (.inl ⟨hx.1, hfacts p hx.1.le⟩)
    (System.env_star fun s t hi he => hi.congr (by rw [environment_db he])
      (by rw [storedPlusOnes, environment_db he]))
    fun _ _ hi hA => hi.action hx hA).1
  have hdb := environments_db hu
  rcases hopen with ⟨hn, -⟩ | ⟨hb, -⟩
  · rw [World.row, hdb] at hrow
    obtain ⟨r, hr⟩ := Option.isSome_iff_exists.1 hrow
    exact absurd (u.db.invitations.id_lt hr) (by omega)
  · exact hb.of_db hdb

/-- The plus-ones of an invitation stay within its allowance through every run in which no
plus-one is overdrawn. -/
theorem plus_ones_within_allowance {s : World} {g h : List CallRecord} {x : CallRecord}
    (hx : (service cfg).Serial .empty (g ++ [x]) s) (hopen : Opens p n x)
    (hrow : (s.row p).isSome) (hs : (service cfg).Serial s h w)
    (hc : ∀ y ∈ h, y.call.call.UsesPlusOnes)
    (hover : ∀ g y k, h = g ++ y :: k → ¬ Overdraws cfg p g y) :
    ((w.db.invitations.children p).card : Int) ≤ allowance p n h :=
  (InBalance.run hs (InBalance.of_opening hx hopen hrow) hc hover).children_le

def invitationFor (n : Int) : Request :=
  ⟨.createInvitation { eventId := some 7, maxInvitees := some n, firstName := "A", lastName := "B" }
    5, { tenantId := some 1 }⟩

def replyWithPlusOne : Request :=
  ⟨.replyInvitation { invitationId := 0, choice := .yes, replyInput := some {
    firstName := "A", lastName := "B"
    phoneNumbers := [{ number := "1", type := .mobile, countryCode := "49" }]
    plusOnes := [{ firstName := "C", lastName := "D", plusOneAgeCategory := some .overSix }] } }
    "de-DE", { tenantId := some 1 }⟩

def addPlusOne : Request :=
  ⟨.createPlusOnesInvitation { eventId := some 7, invitedByInvitationId := some 0, firstName := "E"
                               lastName := "F", plusOneAgeCategory := some .overSix } 5 "de-DE",
    { tenantId := some 1 }⟩

def openedWorld (n : Int) : World := (trace plainConfig [invitationFor n] .empty).2

theorem usesPlusOnes_of_mem {w : World} {y : CallRecord}
    (h : y ∈ (trace cfg [replyWithPlusOne, addPlusOne] w).1) : y.call.call.UsesPlusOnes := by
  have hq := call_of_mem_trace h
  simp only [List.mem_cons, List.not_mem_nil, or_false] at hq
  rcases hq with hq | hq <;> rw [hq] <;> trivial

theorem plus_ones_within_allowance_two :
    let h := (trace plainConfig [replyWithPlusOne, addPlusOne] (openedWorld 2)).1
    let w := (trace plainConfig [replyWithPlusOne, addPlusOne] (openedWorld 2)).2
    (w.db.invitations.children 0).card = 2 ∧
      ((w.db.invitations.children 0).card : Int) ≤ allowance 0 2 h := by
  intro h w
  refine ⟨by decide, plus_ones_within_allowance (g := [])
    (serial_trace [invitationFor 2] .empty (by decide)) ⟨rfl, .inl ⟨_, _, rfl, rfl⟩⟩ (by decide)
    (serial_trace [replyWithPlusOne, addPlusOne] _ (by decide))
    (fun y hy => usesPlusOnes_of_mem hy) fun g y k hk => ?_⟩
  -- what the RSVPs have stored stays below what the row still shows
  have hall : h.all (fun y => (y.before.row 0).all fun r =>
      decide ((storedPlusOnes 0 y.before : Int) < r.maxInvitees)) = true := by decide
  rintro ⟨_, _, _, r, -, hadm, hle⟩
  have hy := List.all_eq_true.1 hall y (by rw [show h = _ from hk]; simp)
  rw [hadm.row, Option.all_some, decide_eq_true_eq] at hy
  omega

/-- The guest brings a plus-one with the RSVP, and `createPlusOne` still finds a free unit. -/
theorem plus_ones_beyond_allowance : ∃ g x s h w,
    (service plainConfig).Serial .empty (g ++ [x]) s ∧ Opens 0 1 x ∧ (s.row 0).isSome ∧
      (service plainConfig).Serial s h w ∧ (∀ y ∈ h, y.call.call.UsesPlusOnes) ∧
      allowance 0 1 h < ((w.db.invitations.children 0).card : Int) := by
  refine ⟨[], _, openedWorld 1, _, _, serial_trace [invitationFor 1] .empty (by decide),
    ⟨rfl, .inl ⟨_, _, rfl, rfl⟩⟩, by decide,
    serial_trace [replyWithPlusOne, addPlusOne] _ (by decide), fun y hy =>
      usesPlusOnes_of_mem hy, by decide⟩

end InvitationService

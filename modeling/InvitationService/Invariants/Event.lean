import InvitationService.Lifecycle.Removal

namespace InvitationService

open Resumption InvitationTable

variable {cfg : Config} {c : Call} {a v w : World} {t u : InvitationTable} {i j p now : Nat}
  {r x y : Invitation}

def Call.creates : Call → Bool
  | .createInvitation .. => true
  | _ => false

inductive Kin (c : Call) (w : World) (t : InvitationTable) (i : Nat) (r : Invitation) : Prop
  | old {x : Invitation} : w.row i = some x → x.eventId = r.eventId →
      x.invitedByInvitationId = r.invitedByInvitationId → Kin c w t i r
  | created {input : InvitationCreateInput} {user : UserId} : w.db.invitations.next ≤ i →
      c = .createInvitation input user → input.eventId = some r.eventId →
      r.invitedByInvitationId = input.invitedByInvitationId → Kin c w t i r
  | root : w.db.invitations.next ≤ i → c.creates = false → r.invitedByInvitationId = none →
      Kin c w t i r
  | child {p : Nat} {y : Invitation} : w.db.invitations.next ≤ i → c.creates = false →
      r.invitedByInvitationId = some p → t.row p = some y → y.eventId = r.eventId → Kin c w t i r

def Kindred (c : Call) (w : World) (t : InvitationTable) : Prop :=
  ∀ i r, t.row i = some r → Kin c w t i r

namespace Kindred

theorem refl : Kindred c w w.db.invitations := fun _ _ hr => .old hr rfl rfl

theorem patch {d : InvitationUpdate} (h : Kindred c w t) : Kindred c w (t.patch j d now) := by
  have hrow : ∀ i r, (t.patch j d now).row i = some r → ∃ x, t.row i = some x ∧
      x.eventId = r.eventId ∧ x.invitedByInvitationId = r.invitedByInvitationId := by
    intro i r hr
    rw [patch_row] at hr
    split at hr
    · obtain ⟨x, hx, rfl⟩ := Option.map_eq_some_iff.1 hr
      exact ⟨x, hx, rfl, rfl⟩
    · exact ⟨r, hr, rfl, rfl⟩
  intro i r hr
  obtain ⟨x, hx, he, hp⟩ := hrow i r hr
  cases h i x hx with
  | old hw he' hp' => exact .old hw (he'.trans he) (hp'.trans hp)
  | created hn hc he' hp' => exact .created hn hc (he ▸ he') (hp ▸ hp')
  | root hn hc hp' => exact .root hn hc (hp ▸ hp')
  | @child p y hn hc hp' hy he' =>
    obtain ⟨z, hz, hez⟩ : ∃ z, (t.patch j d now).row p = some z ∧ z.eventId = y.eventId := by
      rw [patch_row, hy]
      split
      · exact ⟨_, rfl, rfl⟩
      · exact ⟨y, rfl, rfl⟩
    exact .child hn hc (hp ▸ hp') hz (hez.trans (he'.trans he))

theorem insert {h : t.ParentExists r.invitedByInvitationId} (ht : Kindred c w t)
    (hn : w.db.invitations.next ≤ t.next) (hc : c.creates = false)
    (hr : ∀ p, r.invitedByInvitationId = some p → ∃ y, t.row p = some y ∧ y.eventId = r.eventId) :
    Kindred c w (t.insert r h) := by
  intro i x hx
  have hrow : ∀ p y, t.row p = some y → (t.insert r h).row p = some y := fun p y hy => by
    rw [insert_row_of_lt h (t.id_lt hy), hy]
  by_cases hi : i = t.next
  · subst hi
    rw [insert_row_next] at hx
    cases hx
    cases hp : r.invitedByInvitationId with
    | none => exact .root hn hc hp
    | some p =>
      obtain ⟨y, hy, he⟩ := hr p hp
      exact .child hn hc hp (hrow p y hy) he
  · rw [insert_row_of_ne h hi] at hx
    cases ht i x hx with
    | old hw he hp => exact .old hw he hp
    | created hn hc he hp => exact .created hn hc he hp
    | root hn hc hp => exact .root hn hc hp
    | child hn hc hp hy he => exact .child hn hc hp (hrow _ _ hy) he

theorem insertAll {rs : List Invitation} (h : InsertAll t rs u) (ht : Kindred c w t)
    (hn : w.db.invitations.next ≤ t.next) (hc : c.creates = false)
    (hr : ∀ r ∈ rs, ∀ p, r.invitedByInvitationId = some p →
      ∃ y, t.row p = some y ∧ y.eventId = r.eventId) : Kindred c w u := by
  induction h with
  | nil => exact ht
  | @cons t u r rs hp _ ih =>
    refine ih (ht.insert hn hc (hr r (by simp))) (Nat.le_succ_of_le hn) fun x hx p hxp => ?_
    obtain ⟨y, hy, he⟩ := hr x (List.mem_cons_of_mem _ hx) p hxp
    exact ⟨y, by rw [insert_row_of_lt hp (t.id_lt hy), hy], he⟩

theorem stageAll {staged : Bool} {rs : List Invitation} (h : StageAll staged now t rs u)
    (ht : Kindred c w t) : Kindred c w u := by
  induction h with
  | nil => exact ht
  | cons _ ih => exact ih ht.patch

theorem sub (h : ∀ i, t.row i = none ∨ t.row i = w.row i) : Kindred c w t := fun i r hr => by
  rcases h i with hi | hi
  · rw [hi] at hr
    cases hr
  · exact .old (hi ▸ hr) rfl rfl

end Kindred

theorem Change.kindred {o : List OutboxRow} (h : Change Kept cfg c a w t o) : Kindred c w t := by
  cases h with
  | same _ => exact .refl
  | @create r h _ hc _ =>
    cases c with
    | createInvitation input user =>
      obtain ⟨e, settings, he, -, rfl⟩ := hc
      intro i x hx
      by_cases hi : i = w.db.invitations.next
      · subst hi
        rw [insert_row_next] at hx
        cases hx
        exact .created (Nat.le_refl _) rfl he rfl
      · exact .old ((insert_row_of_ne h hi).symm.trans hx) rfl rfl
    | importInvitations e key uploadType sheet user =>
      obtain ⟨firstName, lastName, n, rfl⟩ := hc
      exact Kindred.refl.insert (Nat.le_refl _) rfl nofun
    | _ => exact hc.elim
  | @reply input _ r r' plan now _ t _ _ hc _ hr hr' hplan hins hu _ =>
    have ht : Kindred c w t := by
      refine Kindred.refl.patch.insertAll hins (Nat.le_refl _) (by rw [hc]; rfl) fun x hx p hp => ?_
      obtain ⟨q, -, rfl⟩ := List.mem_map.1 hx
      have hid : r.id = input.invitationId := by
        obtain ⟨v, hv, -⟩ := hr
        exact v.db.invitations.id_eq hv
      obtain rfl : r.id = p := Option.some.inj hp
      rw [hid, patch_row_self, show w.db.invitations.row _ = _ from hr']
      exact ⟨_, rfl, show r'.eventId = r.eventId from core_eventId (hr.core_eq hr')⟩
    rcases hu with rfl | ⟨token, payload, -, -, -, rfl⟩
    · exact ht
    · exact ht.patch
  | @plusOne input user locale p r child h token payload o auto hc _ hadm hchild _ _ _ =>
    subst hchild
    refine (Kindred.refl.patch.insert (h := h) (Nat.le_refl _) (by rw [hc]; rfl)
      fun q hq => ?_).patch
    obtain rfl : p = q := Option.some.inj hq
    rw [patch_row_self, show w.db.invitations.row p = some r from hadm.row]
    exact ⟨_, rfl, rfl⟩
  | details _ _ | attach _ _ _ _ _ | limit _ _ _ | reject _ _ _ | link _ | send _ _ _ _ _ _ =>
    exact Kindred.refl.patch
  | deleteOne _ _ _ => exact (Kindred.sub fun _ => remove_row_eq).patch
  | deleteAll _ _ _ hrem => exact (Kindred.sub fun _ => hrem.row_eq).patch
  | @publicRsvp input locale settings _ _ r h _ _ hc hr hins _ =>
    subst hr
    have hcreates : c.creates = false := by rw [hc]; rfl
    refine (Kindred.refl.insert (h := h) (Nat.le_refl _) hcreates nofun).insertAll hins
      (Nat.le_succ _) hcreates fun x hx p hp => ?_
    obtain ⟨q, -, rfl⟩ := List.mem_map.1 hx
    obtain rfl : w.db.invitations.next = p := Option.some.inj hp
    exact ⟨_, insert_row_next h, rfl⟩
  | stage _ _ _ hstage => exact Kindred.refl.stageAll hstage
  | remove _ => exact .sub fun _ => remove_row_eq
  | removeMany _ hrem => exact .sub fun _ => hrem.row_eq

theorem Action.kindred (hA : Action Kept cfg c a w v) : Kindred c w v.db.invitations := by
  cases hA with
  | step _ hch _ _ _ _ => exact hch.kindred
  | project hp => exact .sub fun _ => .inr (by rw [hp.invitations])
  | approve _ _ _ _ => exact Kindred.refl.patch
  | confirm _ _ _ _ _ _ _ | resent _ | reminded _ | ticket _ _ => exact .refl

def SameEvent (w : World) : Prop :=
  ∀ i r p, w.row i = some r → r.invitedByInvitationId = some p →
    ∃ y, w.row p = some y ∧ y.eventId = r.eventId

def Call.NamesOwn (c : Call) (w : World) : Prop :=
  match c with
  | .createInvitation input _ =>
    ∀ p ∈ input.invitedByInvitationId, ∀ y ∈ w.row p, input.eventId = some y.eventId
  | _ => True

instance (c : Call) (w : World) : Decidable (c.NamesOwn w) := by
  unfold Call.NamesOwn
  cases c <;> infer_instance

theorem SameEvent.parent (h : SameEvent w) (hr : w.row i = some r)
    (hp : r.invitedByInvitationId = some p) (hy : w.row p = some y) : y.eventId = r.eventId := by
  obtain ⟨z, hz, he⟩ := h i r p hr hp
  rw [hy] at hz
  cases hz
  exact he

theorem SameEvent.of_db (h : SameEvent w) (hdb : v.db = w.db) : SameEvent v := by
  unfold SameEvent World.row at h ⊢
  rwa [hdb]

theorem Call.NamesOwn.of_db (h : c.NamesOwn w) (hdb : v.db = w.db) : c.NamesOwn v := by
  unfold Call.NamesOwn World.row at h ⊢
  rwa [hdb]

theorem Kindred.named {input : InvitationCreateInput} {user : UserId}
    (h : Kindred (.createInvitation input user) w v.db.invitations) (hr : v.row i = some r) :
    (∃ x, w.row i = some x ∧ x.eventId = r.eventId) ∨ input.eventId = some r.eventId := by
  cases h i r hr with
  | old hw he _ => exact .inl ⟨_, hw, he⟩
  | created _ hc he _ =>
    cases hc
    exact .inr he
  | root _ hc _ | child _ hc _ _ _ => cases hc

theorem Kindred.namesOwn (h : Kindred c w v.db.invitations) (hc : c.NamesOwn w) : c.NamesOwn v := by
  cases c with
  | createInvitation input user =>
    intro p hp y hy
    rcases h.named hy with ⟨x, hx, he⟩ | he
    · exact (hc p hp x hx).trans (congrArg some he)
    · exact he
  | _ => trivial

theorem Kindred.sameEvent (h : Kindred c w v.db.invitations) (hw : SameEvent w)
    (hc : c.NamesOwn w) : SameEvent v := by
  intro i r p hr hp
  obtain ⟨y, hy⟩ := Option.isSome_iff_exists.1 (v.db.invitations.parent_row hr hp)
  refine ⟨y, hy, ?_⟩
  cases h i r hr with
  | @old x hx he hxp =>
    obtain ⟨z, hz, hez⟩ := hw i x p hx (hxp.trans hp)
    have hlt := w.db.invitations.id_lt hz
    cases h p y hy with
    | old hpx hpe _ =>
      rw [hz] at hpx
      cases hpx
      exact hpe.symm.trans (hez.trans he)
    | created hn _ _ _ | root hn _ _ | child hn _ _ _ _ => exact absurd hlt (Nat.not_lt.2 hn)
  | @created input user _ hcall he hpar =>
    subst hcall
    rcases h.named hy with ⟨x, hx, hxe⟩ | hye
    · have := hc p (hpar.symm.trans hp) x hx
      rw [he] at this
      exact hxe.symm.trans (Option.some.inj this).symm
    · rw [he] at hye
      exact (Option.some.inj hye).symm
  | root _ _ hnone =>
    rw [hp] at hnone
    cases hnone
  | child _ _ hpar hz hez =>
    rw [hp] at hpar
    cases hpar
    rw [show v.db.invitations.row p = some y from hy] at hz
    cases hz
    exact hez

theorem SameEvent.event_of_under {roots : Nat → Bool} (h : SameEvent w) {i : Nat}
    (hu : w.db.invitations.under roots i = true) :
    ∀ r, w.row i = some r → ∃ j x, roots j = true ∧ w.row j = some x ∧ x.eventId = r.eventId := by
  refine under_induction (P := fun i => ∀ r, w.row i = some r →
    ∃ j x, roots j = true ∧ w.row j = some x ∧ x.eventId = r.eventId) hu ?_ ?_
  · exact fun j hj r hr => ⟨j, r, hj, hr, rfl⟩
  · intro j p hp ih r hr
    obtain ⟨x, hx, hxp⟩ := parent_eq_some.1 hp
    obtain rfl : x = r := Option.some.inj (hx.symm.trans hr)
    obtain ⟨y, hy, he⟩ := h j x p hr hxp
    obtain ⟨k, z, hk, hz, hze⟩ := ih y hy
    exact ⟨k, z, hk, hz, hze.trans he⟩

/-- A call that removes invitations removes those of the events alone that it is scoped to. -/
def Spares (cfg : Config) (w : World) : Prop :=
  ∀ q r v, q.call.removal = true →
    Prog.Exec (Relation.ReflTransGen (service cfg).env) ((service cfg).exec q)
      ((service cfg).arrive q w) r v →
    ∀ i x, w.row i = some x → v.row i = none → q.call.Scoped x.eventId

theorem SameEvent.spares (h : SameEvent w) : Spares cfg w := by
  intro q r v hq hex i x hx hv
  rcases removal_of_exec hq hex with hsame | hclear
  · rw [World.row, hsame, show w.db.invitations.row i = some x from hx] at hv
    cases hv
  · have hrow := hclear.row i
    rw [show v.db.invitations.row i = none from hv, remove_row] at hrow
    split at hrow
    · rename_i hu
      obtain ⟨j, y, hj, hy, he⟩ := h.event_of_under hu x hx
      exact he ▸ hclear.scope j y hj hy
    · rw [show w.db.invitations.row i = some x from hx] at hrow
      cases hrow

/-- As long as every parent that is named is of the event that is named, plus-ones belong to the
event of their parent, and a removal that is scoped to an event spares the others. -/
theorem events_kept {h : List CallRecord} (hs : (service cfg).Serial .empty h w)
    (hnames : ∀ x ∈ h, x.call.call.NamesOwn x.before) : SameEvent w ∧ Spares cfg w := by
  have hsame : SameEvent w := hs.stepwise (I := SameEvent)
    (J := fun q _ t => SameEvent t ∧ q.call.NamesOwn t) hnames (fun _ _ _ hr => by cases hr)
    (fun _ _ hi he => hi.of_db (environment_db he)) service_guarantees
    (fun _ _ _ hi _ hp => ⟨hi, hp⟩)
    (fun _ _ _ _ hJ he => ⟨hJ.1.of_db (environment_db he), hJ.2.of_db (environment_db he)⟩)
    (fun _ _ _ _ hJ hA => ⟨hA.kindred.sameEvent hJ.1 hJ.2, hA.kindred.namesOwn hJ.2⟩)
    fun _ _ _ hJ => hJ.1
  exact ⟨hsame, hsame.spares⟩

def familyRun (e : EventId) : List Request :=
  [⟨.createInvitation { eventId := some 7, firstName := "A", lastName := "B" } 5,
      { tenantId := some 1 }⟩,
    ⟨.createInvitation {
      eventId := some e, invitedByInvitationId := some 0, firstName := "C", lastName := "D" } 5,
      { tenantId := some 1 }⟩]

theorem events_kept_family :
    let x := trace plainConfig (familyRun 7) .empty
    (x.2.row 1).any (·.invitedByInvitationId = some 0) = true ∧ SameEvent x.2 ∧
      Spares plainConfig x.2 := by
  exact ⟨by decide, events_kept (serial_trace (familyRun 7) .empty (by decide)) (by decide)⟩

/-- A plus-one of another event than its parent's. -/
theorem events_not_kept : ¬ ∀ w, Reachable plainConfig w → SameEvent w ∧ Spares plainConfig w := by
  intro hall
  have h := (hall _ ⟨_, serial_trace (familyRun 8) .empty (by decide)⟩).1
  have hrow : ((trace plainConfig (familyRun 8) .empty).2.row 1).any (fun r =>
      r.invitedByInvitationId = some 0 && r.eventId = 8) = true := by decide
  have hparent : ((trace plainConfig (familyRun 8) .empty).2.row 0).any (·.eventId = 7) = true := by
    decide
  obtain ⟨r, hr, hok⟩ := (Option.any_eq_true _ _).1 hrow
  obtain ⟨y, hy, hevent⟩ := (Option.any_eq_true _ _).1 hparent
  obtain ⟨hp, he⟩ := Bool.and_eq_true_iff.1 hok
  have hsame := h.parent hr (of_decide_eq_true hp) hy
  rw [of_decide_eq_true hevent, of_decide_eq_true he] at hsame
  cases hsame

end InvitationService

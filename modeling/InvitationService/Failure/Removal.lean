import InvitationService.Removal.PlusOnes

open Relation (ReflTransGen)

namespace InvitationService

open Resumption Query InvitationTable GuestWrite

variable {cfg : Config} {ctx : Context} {u : UserId} {i p : Nat} {r : Invitation}
  {rs : List Invitation} {gs : List UserId} {s t v w : World}

/-- What happens without the service while no cached contact expires or is used up. -/
def Lasting (v w : World) : Prop := World.Environment v w ∧ w.pendingContact = v.pendingContact

theorem Lasting.star (h : ReflTransGen Lasting v w) :
    w.db = v.db ∧ w.pendingContact = v.pendingContact ∧ w.journal = v.journal := by
  induction h with
  | refl => exact ⟨rfl, rfl, rfl⟩
  | tail _ he ih =>
    exact ⟨(environment_db he.1).trans ih.1, he.2.trans ih.2.1,
      (environment_journal he.1).trans ih.2.2⟩

def Effect.DeletesGuest (g : UserId) : Effect → Prop
  | .produced (.deleteGuest g') _ _ => g' = g
  | .produced (.deleteGuestList gs) _ _ => g ∈ gs
  | _ => False

structure Spends (rs : List Invitation) (gs : List UserId) (v w : World) : Prop where
  pendingContact : ∀ token, w.pendingContact token = v.pendingContact token ∨
    token ∈ tokens rs ∧ w.pendingContact token = none
  journal : ∃ l, w.journal = l ++ v.journal ∧ ∀ x ∈ l, ∀ g, x.DeletesGuest g → g ∈ gs

namespace Spends

theorem of_eq (h₁ : w.pendingContact = v.pendingContact) (h₂ : w.journal = v.journal) :
    Spends rs gs v w := ⟨fun token => .inl (congrFun h₁ token), [], h₂, by simp⟩

theorem refl (w : World) : Spends rs gs w w := of_eq rfl rfl

theorem trans (s t u : World) (h : Spends rs gs s t) (k : Spends rs gs t u) : Spends rs gs s u where
  pendingContact token := by
    rcases k.pendingContact token with hk | hk
    · rw [hk]
      exact h.pendingContact token
    · exact .inr hk
  journal := by
    obtain ⟨l, hl, hg⟩ := h.journal
    obtain ⟨l', hl', hg'⟩ := k.journal
    refine ⟨l' ++ l, by rw [hl', hl, List.append_assoc], fun x hx g hd => ?_⟩
    rcases List.mem_append.1 hx with hx | hx
    · exact hg' x hx g hd
    · exact hg x hx g hd

theorem rollback (h : Spends rs gs v w) : Spends rs gs v (World.rollback v w) :=
  ⟨h.pendingContact, h.journal⟩

theorem log {x : Effect} (hx : ∀ g, x.DeletesGuest g → g ∈ gs) : Spends rs gs w (w.log x) where
  pendingContact _ := .inl rfl
  journal := ⟨[x], rfl, by simpa using hx⟩

theorem dropPending {token : Nat} (ht : token ∈ tokens rs) :
    Spends rs gs w (w.dropPending token) where
  pendingContact k := by
    by_cases hk : k = token
    · subst hk
      exact .inr ⟨ht, Function.update_self ..⟩
    · exact .inl (Function.update_of_ne hk ..)
  journal := ⟨[], rfl, by simp⟩

end Spends

theorem spends_deleteInvitation : (deleteInvitation i).Moves (Spends rs gs) :=
  Block.moves_call Spends.refl fun w => Spends.of_eq (by split <;> rfl) (by split <;> rfl)

theorem spends_updateInvitation {d : InvitationUpdate} :
    (updateInvitation i d).Moves (Spends rs gs) :=
  moves_update Spends.refl fun _ => Spends.of_eq rfl rfl

theorem spends_dropPendingContact (hr : r ∈ rs) :
    (dropPendingContact r).Moves (Spends rs gs) := by
  unfold dropPendingContact
  split
  · rename_i token hk
    exact Block.moves_call Spends.refl fun w => .dropPending (List.mem_filterMap.2 ⟨r, hr, hk⟩)
  · exact Prog.moves_ret Spends.refl _

theorem spends_publishGuestDeleted (hr : ∀ g, r.guestProfileId = some g → g ∈ gs) :
    (publishGuestDeleted cfg ctx r u).Moves (Spends rs gs) := by
  unfold publishGuestDeleted
  split
  · rename_i g hg
    refine Block.moves_call Spends.refl fun w => .log fun g' hg' => ?_
    obtain rfl : g = g' := hg'
    exact hr g hg
  · exact Prog.moves_ret Spends.refl _

theorem spends_deleteChildren {cs : List Invitation} (hc : ∀ c ∈ cs, c ∈ rs) :
    (cs.mapM' deleteChild).Moves (Spends rs gs) := by
  induction cs with
  | nil => exact Prog.moves_ret Spends.refl _
  | cons c cs ih =>
    rw [Prog.mapM'_cons]
    refine ((spends_dropPendingContact (hc c (by simp))).bind Spends.trans fun _ =>
      spends_deleteInvitation).bind Spends.trans fun x => ?_
    exact (ih fun y hy => hc y (List.mem_cons_of_mem _ hy)).bind Spends.trans fun _ =>
      Prog.moves_ret Spends.refl _

def Halfway (p : Nat) (rs : List Invitation) (v w : World) : Prop :=
  Spends rs [] v w ∧ w.row p = v.row p

namespace Halfway

theorem refl (w : World) : Halfway p rs w w := ⟨.refl w, rfl⟩

theorem trans (s t u : World) (h : Halfway p rs s t) (k : Halfway p rs t u) : Halfway p rs s u :=
  ⟨.trans s t u h.1 k.1, k.2.trans h.2⟩

end Halfway

theorem halfway_dropPendingContact (hr : r ∈ rs) :
    (dropPendingContact r).Moves (Halfway p rs) := by
  unfold dropPendingContact
  split
  · rename_i token hk
    refine Block.moves_call Halfway.refl fun w => ⟨?_, rfl⟩
    exact .dropPending (List.mem_filterMap.2 ⟨r, hr, hk⟩)
  · exact Prog.moves_ret Halfway.refl _

theorem halfway_deleteInvitation (hi : p < i) : (deleteInvitation i).Moves (Halfway p rs) :=
  Block.moves_call Halfway.refl fun w => by
    split
    · exact ⟨.of_eq rfl rfl, row_remove_of_lt hi⟩
    · exact .refl w

theorem halfway_deleteChildren {cs : List Invitation} (hc : ∀ c ∈ cs, c ∈ rs ∧ p < c.id) :
    (cs.mapM' deleteChild).Moves (Halfway p rs) := by
  induction cs with
  | nil => exact Prog.moves_ret Halfway.refl _
  | cons c cs ih =>
    obtain ⟨hrs, hlt⟩ := hc c (by simp)
    rw [Prog.mapM'_cons]
    refine ((halfway_dropPendingContact hrs).bind Halfway.trans fun _ =>
      halfway_deleteInvitation hlt).bind Halfway.trans fun x => ?_
    exact (ih fun y hy => hc y (List.mem_cons_of_mem _ hy)).bind Halfway.trans fun _ =>
      Prog.moves_ret Halfway.refl _

theorem spends_refused {α β : Type} {b : Query α} {g : α → Invitation → Query β} {n : Int}
    {x : Invitation} (hb : b.Moves (Halfway p rs)) (hx : w.row p = some x)
    (hfits : fitsInt (x.maxInvitees + n) = false) :
    (b >>= fun a => updateInvitation p { maxInvitees := some (.increment n) } >>= g a).Post
      (fun _ v => Spends rs [] w v) w :=
  Prog.post_bind.2 <| (hb w).mono fun o v ⟨hs, hrow⟩ => by
    cases o with
    | error e => exact hs
    | ok a => exact Prog.post_bind.2 <| post_update_refused (hrow.trans hx) hfits fun _ => hs

/-- The rows that a removal of plus-ones deletes when its checks pass. -/
def Call.doomed (cfg : Config) (c : Call) (w : World) : List Invitation :=
  match c with
  | .removePlusOneInvitation i user => (w.row i).toList.filter fun r =>
      (r.invitedByInvitationId.bind w.row).any fun x => (authority cfg w.db user x).isSome
  | .removeAllPlusOnesByInvitationId p user => (w.row p).elim [] fun x =>
      if (authority cfg w.db user x).isSome then plusOnesOf w.db.invitations p x else []
  | _ => []

/-- The counter of the parent has room for the slots of the rows that the removal deletes. -/
def Call.refunds (cfg : Config) (c : Call) (w : World) : Bool :=
  match c with
  | .removePlusOneInvitation i _ => (((w.row i).bind (·.invitedByInvitationId)).bind w.row).all
      fun x => fitsInt (x.maxInvitees + 1)
  | .removeAllPlusOnesByInvitationId p _ => (w.row p).all fun x =>
      fitsInt (x.maxInvitees + (c.doomed cfg w).length)
  | _ => true

def Call.farewells (cfg : Config) (c : Call) (w : World) : List UserId :=
  if c.refunds cfg w then guests (c.doomed cfg w) else []

theorem post_check {α β : Type} {b : Query α} {g : α → Query β}
    {Q : Except Exception β → World → Prop}
    (hb : b.Looks) (herr : ∀ e, Q (.error e) w) (h : b.Ends (fun a _ => (g a).Post Q w) w) :
    (b >>= g).Post Q w :=
  Prog.post_bind.2 <| ((hb w).and h).mono fun o t ht => by
    obtain ⟨rfl, ht⟩ := ht
    cases o with
    | ok a => exact ht
    | error e => exact herr e

theorem doomed_one {x : Invitation} {b : Bool} (hr : w.row i = some r)
    (hp : r.invitedByInvitationId = some p) (hx : w.row p = some x)
    (hb : authority cfg w.db u x = some b) :
    Call.doomed cfg (.removePlusOneInvitation i u) w = [r] ∧
      Call.refunds cfg (.removePlusOneInvitation i u) w = fitsInt (x.maxInvitees + 1) := by
  constructor
  · simp [Call.doomed, hr, hp, hx, hb]
  · simp [Call.refunds, hr, hp, hx]

theorem doomed_all {x : Invitation} {b : Bool} (hx : w.row p = some x)
    (hb : authority cfg w.db u x = some b) :
    Call.doomed cfg (.removeAllPlusOnesByInvitationId p u) w = plusOnesOf w.db.invitations p x ∧
      Call.refunds cfg (.removeAllPlusOnesByInvitationId p u) w =
        fitsInt (x.maxInvitees + (plusOnesOf w.db.invitations p x).length) := by
  have hdoom : Call.doomed cfg (.removeAllPlusOnesByInvitationId p u) w =
      plusOnesOf w.db.invitations p x := by simp [Call.doomed, hx, hb]
  exact ⟨hdoom, by simp [Call.refunds, hdoom, hx]⟩

theorem deletePlusOneTransaction_spends : (deletePlusOneTransaction cfg ctx i u).Post
    (fun _ v => Spends (Call.doomed cfg (.removePlusOneInvitation i u) w)
      (Call.farewells cfg (.removePlusOneInvitation i u) w) w v) w := by
  refine post_check looks_ensureExists (fun _ => .refl w) (ends_ensureExists.2 fun r hr => ?_)
  cases hpar : parentOfPlusOne r with
  | error e => exact .refl w
  | ok p =>
    have hp := parentOfPlusOne_ok hpar
    refine post_check (Prog.looks_ret _) (fun _ => .refl w) (Prog.ends_ok.2 ?_)
    refine post_check looks_ensureUserCanManage (fun _ => .refl w)
      (ends_ensureUserCanManage.2 fun x hx b hb => ?_)
    obtain ⟨hdoom, hfits⟩ := doomed_one hr hp hx hb
    rw [Call.farewells, hfits, hdoom]
    cases hcap : fitsInt (x.maxInvitees + 1) with
    | true =>
      exact ((spends_dropPendingContact (by simp)).bind Spends.trans fun _ =>
        spends_deleteInvitation.bind Spends.trans fun _ =>
          spends_updateInvitation.bind Spends.trans fun _ =>
            (spends_publishGuestDeleted fun g hg => by simp [guests, hg]).bind Spends.trans
              fun _ => Prog.moves_ret Spends.refl _) w
    | false =>
      have hhalf : (do dropPendingContact r; deleteInvitation i : Query Invitation).Moves
          (Halfway p [r]) := (halfway_dropPendingContact (by simp)).bind Halfway.trans fun _ =>
        halfway_deleteInvitation (w.db.invitations.parent_lt hr hp)
      have h := spends_refused (g := fun deleted _ => do
        publishGuestDeleted cfg ctx r u
        return deleted) hhalf hx hcap
      rwa [Prog.bind_assoc] at h

theorem deleteAllTransaction_spends : (deleteAllTransaction cfg ctx p u).Post
    (fun _ v => Spends (Call.doomed cfg (.removeAllPlusOnesByInvitationId p u) w)
      (Call.farewells cfg (.removeAllPlusOnesByInvitationId p u) w) w v) w := by
  refine post_check looks_ensureExists (fun _ => .refl w) (ends_ensureExists.2 fun x hx => ?_)
  refine post_check looks_ensureUserCanManage (fun _ => .refl w)
    (ends_ensureUserCanManage.2 fun x' hx' b hb => ?_)
  obtain rfl : x' = x := Option.some.inj (hx'.symm.trans hx)
  obtain ⟨hdoom, hfits⟩ := doomed_all hx hb
  rw [Call.farewells, hfits, hdoom]
  refine post_check (Block.looks_call fun _ => rfl) (fun _ => .refl w)
    (ends_findManyInvitations.2 ?_)
  generalize hrs : plusOnesOf w.db.invitations p x' = rs
  rw [show w.db.invitations.select _ = rs from hrs]
  cases hcap : fitsInt (x'.maxInvitees + rs.length) with
  | true =>
    rw [if_pos rfl]
    refine ((spends_deleteChildren fun r hr => hr).bind Spends.trans fun rows =>
      spends_updateInvitation.bind Spends.trans fun _ => ?_) w
    dsimp only
    split
    · refine Prog.Moves.bind Spends.trans ?_ fun _ => Prog.moves_ret Spends.refl _
      exact Block.moves_call Spends.refl fun w => .log fun g hg => hg
    · exact Prog.moves_ret Spends.refl _
  | false =>
    refine spends_refused (halfway_deleteChildren fun r hr => ⟨hr, ?_⟩) hx hcap
    rw [← hrs] at hr
    obtain ⟨hrow, hq⟩ := mem_select.1 hr
    exact w.db.invitations.parent_lt hrow (of_decide_eq_true (Bool.and_eq_true_iff.1 hq).1)

theorem Call.doomed_congr {c : Call} (h : w.db = v.db) : c.doomed cfg w = c.doomed cfg v := by
  unfold Call.doomed World.row
  simp only [h]

theorem Call.farewells_congr {c : Call} (h : w.db = v.db) :
    c.farewells cfg w = c.farewells cfg v := by
  unfold Call.farewells Call.refunds World.row
  simp only [Call.doomed_congr h, h]

theorem guarantees_spends {α : Type} {b : Query α} {c : Call}
    (hb : ∀ t, b.Post (fun _ v => Spends (c.doomed cfg t) (c.farewells cfg t) t v) t) :
    (do let _ ← Query.transaction b : Program Unit).Guarantees (ReflTransGen Lasting)
      (fun _ _ => True)
      (fun o v => Spends (c.doomed cfg w) (c.farewells cfg w) w v ∧
        ∀ e, o = .error e → v.db = w.db) w := by
  refine Prog.Guarantees.bind <| guarantees_transaction fun t hwt => ?_
  obtain ⟨hdb, hpend, hjour⟩ := Lasting.star hwt
  rw [← Call.doomed_congr hdb, ← Call.farewells_congr hdb]
  have hcome : ∀ v, Spends (c.doomed cfg t) (c.farewells cfg t) t v →
      Spends (c.doomed cfg t) (c.farewells cfg t) w v := fun v h =>
    Spends.trans w t v (.of_eq hpend hjour) h
  refine (hb t).mono fun o v hv => ?_
  cases o with
  | ok a => exact ⟨⟨trivial, hcome v hv, nofun⟩, trivial, hcome _ hv.rollback, fun _ _ => hdb⟩
  | error e => exact ⟨trivial, hcome _ hv.rollback, fun _ _ => hdb⟩

def Call.dropsPlusOnes : Call → Bool
  | .removePlusOneInvitation .. | .removeAllPlusOnesByInvitationId .. => true
  | _ => false

theorem execute_spends {q : Request} (hq : q.call.dropsPlusOnes = true) :
    (execute cfg q).Guarantees (ReflTransGen Lasting) (fun _ _ => True)
      (fun o v => Spends (q.call.doomed cfg w) (q.call.farewells cfg w) w v ∧
        ∀ e, o = .error e → v.db = w.db) w := by
  obtain ⟨c, ctx⟩ := q
  cases c with
  | removePlusOneInvitation i u =>
    exact guarantees_spends fun _ => deletePlusOneTransaction_spends
  | removeAllPlusOnesByInvitationId p u =>
    exact guarantees_spends fun _ => deleteAllTransaction_spends
  | _ => cases hq

structure Spent (rs : List Invitation) (gs : List UserId) (v w : World) : Prop where
  pendingContact : ∀ token ∈ tokens rs, w.pendingContact token = none
  journal : ∃ l, w.journal = l ++ v.journal ∧ ∀ g ∈ gs, ∃ x ∈ l, x.DeletesGuest g

theorem mayFail_spent {α : Type} {b : Query α} {rs : List Invitation} {gs : List UserId}
    {o : Except Exception α} (h : b.solo false w = (o, v)) (hs : Spent rs gs w v) :
    (Query.transaction b).MayFail (ReflTransGen Lasting) (Spent rs gs w) w := by
  have hrolled : Spent rs gs w (World.rollback w v) := ⟨hs.pendingContact, hs.journal⟩
  cases o with
  | ok a => exact mayFail_commit (fun _ => .refl) (Prog.succeeds_of h hrolled)
  | error e =>
    refine ⟨e, _, Prog.exec_solo (fun _ => .refl) (fun _ => false) ?_, hrolled⟩
    rw [Query.transaction, solo_transaction, h]

theorem deletePlusOne_spent (hr : r ∈ Call.doomed cfg (.removePlusOneInvitation i u) w) :
    ∃ o v, (deletePlusOneTransaction cfg ctx i u).solo false w = (o, v) ∧
      Spent (Call.doomed cfg (.removePlusOneInvitation i u) w)
        (Call.farewells cfg (.removePlusOneInvitation i u) w) w v := by
  obtain ⟨hrow, hok⟩ := List.mem_filter.1 hr
  have hrow := Option.mem_toList.1 hrow
  obtain ⟨x, hx, hb⟩ := (Option.any_eq_true _ _).1 hok
  obtain ⟨p, hp, hx⟩ := Option.bind_eq_some_iff.1 hx
  obtain ⟨b, hb⟩ := Option.isSome_iff_exists.1 hb
  obtain ⟨hdoom, hfits⟩ := doomed_one hrow hp hx hb
  obtain rfl : r.id = i := w.db.invitations.id_eq hrow
  have hsolo := @deletePlusOneTransaction_solo cfg ctx u p r x w b hrow hp hx hb
  have hdropped : ∀ token ∈ tokens [r], (w.dropContact r).pendingContact token = none :=
    fun token ht => by
      have hone : r.pendingContactId = some token := by
        simpa [tokens, List.mem_filterMap] using ht
      exact (World.dropContact_pendingContact token).trans (if_pos hone)
  rw [Call.farewells, hfits, hdoom]
  cases hcap : fitsInt (x.maxInvitees + 1) with
  | true =>
    rw [hcap, if_pos rfl] at hsolo
    refine ⟨_, _, hsolo, hdropped, _, rfl, fun g hg => ?_⟩
    exact ⟨_, List.mem_reverse.2 (List.mem_map.2 ⟨g, hg, rfl⟩), rfl⟩
  | false =>
    rw [hcap, if_neg Bool.false_ne_true] at hsolo
    exact ⟨_, _, hsolo, hdropped, [], by simp [afterDeletion], by simp⟩

theorem deleteAll_spent (hr : r ∈ Call.doomed cfg (.removeAllPlusOnesByInvitationId p u) w) :
    ∃ o v, (deleteAllTransaction cfg ctx p u).solo false w = (o, v) ∧
      Spent (Call.doomed cfg (.removeAllPlusOnesByInvitationId p u) w)
        (Call.farewells cfg (.removeAllPlusOnesByInvitationId p u) w) w v := by
  obtain ⟨x, b, hx, hb⟩ : ∃ x b, w.row p = some x ∧ authority cfg w.db u x = some b := by
    simp only [Call.doomed] at hr
    cases hx : w.row p with
    | none => simp [hx] at hr
    | some x =>
      rw [hx, Option.elim_some] at hr
      split at hr
      · rename_i hb
        obtain ⟨b, hb⟩ := Option.isSome_iff_exists.1 hb
        exact ⟨x, b, rfl, hb⟩
      · simp at hr
  obtain ⟨hdoom, hfits⟩ := doomed_all hx hb
  rw [Call.farewells, hfits, hdoom]
  cases hcap : fitsInt (x.maxInvitees + (plusOnesOf w.db.invitations p x).length) with
  | true =>
    obtain ⟨v, hv, hemp, hjour⟩ := @deleteAllTransaction_solo cfg ctx u p x w b hx hb hcap
    refine ⟨_, v, hv, fun token ht => by rw [hemp.pendingContact, if_pos ht], _, hjour,
      fun g hg => ?_⟩
    have hne : (guests (plusOnesOf w.db.invitations p x)).isEmpty = false := by
      simpa using List.ne_nil_of_mem hg
    rw [deletionList, hne]
    exact ⟨_, List.mem_singleton.2 rfl, hg⟩
  | false =>
    obtain ⟨v, hv, hs⟩ := @deleteAllTransaction_refused cfg ctx u p x w b hx hb (by simp [hcap])
    exact ⟨_, v, hv, fun token ht => by rw [hs.pendingContact, if_pos ht], [],
      by simp [hs.journal], by simp⟩

theorem exec_spent {q : Request} (hq : q.call.dropsPlusOnes = true) (hr : r ∈ q.call.doomed cfg w) :
    (execute cfg q).MayFail (ReflTransGen Lasting)
      (Spent (q.call.doomed cfg w) (q.call.farewells cfg w) w) w := by
  obtain ⟨c, ctx⟩ := q
  cases c with
  | removePlusOneInvitation i u =>
    obtain ⟨o, v, hsolo, hs⟩ := @deletePlusOne_spent cfg ctx u i r w hr
    exact .first (mayFail_spent hsolo hs)
  | removeAllPlusOnesByInvitationId p u =>
    obtain ⟨o, v, hsolo, hs⟩ := @deleteAll_spent cfg ctx u p r w hr
    exact .first (mayFail_spent hsolo hs)
  | _ => cases hq

/-- A removal that fails has changed no row, deleted no contact and asked for no account to be
deleted; one that succeeds has asked for that only for guests whose rows are gone. -/
def RemovesAtomically (cfg : Config) (q : Request) (w : World) : Prop :=
  ∀ o v, Prog.Exec (ReflTransGen Lasting) (execute cfg q) w o v → ∃ l, v.journal = l ++ w.journal ∧
    (∀ x ∈ l, ∀ g, x.DeletesGuest g →
      ∃ i r, w.row i = some r ∧ r.guestProfileId = some g ∧ v.row i = none) ∧
    ∀ e, o = .error e → v.db = w.db ∧ v.pendingContact = w.pendingContact ∧
      ∀ x ∈ l, ∀ g, ¬ x.DeletesGuest g

/-- The removal of plus-ones is atomic just when its checks refuse it, or no plus-one it would
delete has a contact in the cache, nor an account if the counter of the parent has room for the
slots. -/
theorem removes_atomically_iff {q : Request} (hq : q.call.dropsPlusOnes = true) :
    RemovesAtomically cfg q w ↔ ∀ r ∈ q.call.doomed cfg w,
      (q.call.refunds cfg w = true → r.guestProfileId = none) ∧
      ∀ token, r.pendingContactId = some token → w.pendingContact token = none := by
  constructor
  · intro hatomic r hr
    obtain ⟨e, v, hex, hs⟩ := exec_spent hq hr
    obtain ⟨l, hl, -, hclean⟩ := hatomic _ v hex
    obtain ⟨-, hpend, hnone⟩ := hclean e rfl
    obtain ⟨l', hl', hall⟩ := hs.journal
    obtain rfl : l' = l := List.append_cancel_right (hl'.symm.trans hl)
    constructor
    · intro hrefunds
      cases hg : r.guestProfileId with
      | none => rfl
      | some g =>
        rw [Call.farewells, if_pos hrefunds] at hall
        obtain ⟨x, hx, hd⟩ := hall g (List.mem_filterMap.2 ⟨r, hr, hg⟩)
        exact absurd hd (hnone x hx g)
    · intro token ht
      rw [← hpend]
      exact hs.pendingContact token (List.mem_filterMap.2 ⟨r, hr, ht⟩)
  · intro hfree o v hex
    have hnoguest : ∀ g, g ∉ q.call.farewells cfg w := fun g hg => by
      unfold Call.farewells at hg
      split at hg
      · rename_i hrefunds
        obtain ⟨r, hr, hrg⟩ := List.mem_filterMap.1 hg
        rw [(hfree r hr).1 hrefunds] at hrg
        cases hrg
      · cases hg
    obtain ⟨hs, ho⟩ := hex.ends (execute_spends hq) fun _ _ h => h
    obtain ⟨l, hl, hd⟩ := hs.journal
    refine ⟨l, hl, fun x hx g hg => absurd (hd x hx g hg) (hnoguest g), fun e he => ?_⟩
    subst he
    refine ⟨ho e rfl, funext fun token => ?_, fun x hx g hg => hnoguest g (hd x hx g hg)⟩
    rcases hs.pendingContact token with h | ⟨ht, hn⟩
    · exact h
    · obtain ⟨r, hr, hrt⟩ := List.mem_filterMap.1 ht
      rw [hn, (hfree r hr).2 token hrt]

theorem removes_atomically_iff_bare :
    RemovesAtomically plainConfig ⟨.removePlusOneInvitation 2 5, {}⟩ siblingsWorld := by
  have hbare : (Call.doomed plainConfig (.removePlusOneInvitation 2 5) siblingsWorld).all (fun r =>
      r.guestProfileId.isNone && r.pendingContactId.isNone) = true := by decide
  refine (removes_atomically_iff rfl).2 fun r hr => ?_
  obtain ⟨hg, hc⟩ := Bool.and_eq_true_iff.1 (List.all_eq_true.1 hbare r hr)
  refine ⟨fun _ => Option.isNone_iff_eq_none.1 hg, fun token ht => ?_⟩
  rw [ht] at hc
  cases hc

/-- The account of a plus-one is to be deleted, and the commit of the removal fails. -/
theorem removal_not_atomic : ¬ ∀ q w, q.call.dropsPlusOnes = true →
    RemovesAtomically plainConfig q w := by
  intro hall
  have hguest : (Call.doomed plainConfig (.removePlusOneInvitation 1 5) siblingsWorld).any
      (·.guestProfileId = some 9) = true := by decide
  have hfarewell : Call.farewells plainConfig (.removePlusOneInvitation 1 5)
    siblingsWorld = [9] := by
    decide
  obtain ⟨r, hr, -⟩ := List.any_eq_true.1 hguest
  obtain ⟨e, v, hex, hs⟩ :=
    @exec_spent plainConfig r siblingsWorld ⟨.removePlusOneInvitation 1 5, {}⟩ rfl hr
  obtain ⟨l, hl, -, hclean⟩ := hall ⟨.removePlusOneInvitation 1 5, {}⟩ siblingsWorld rfl _ v hex
  obtain ⟨l', hl', hd⟩ := hs.journal
  obtain rfl : l' = l := List.append_cancel_right (hl'.symm.trans hl)
  obtain ⟨x, hx, hxd⟩ := hd 9 (by rw [hfarewell]; exact List.mem_singleton_self 9)
  exact (hclean e rfl).2.2 x hx 9 hxd

end InvitationService

import InvitationService.Model.Service

namespace InvitationService

open Resumption

def Effect.Silent : Effect → Prop
  | .called _ => False
  | .produced (.confirmGuest ..) _ _ => False
  | .scheduled (.generateTicket ..) _ => False
  | .approved .. => False
  | .resent _ => False
  | .reminded .. => False
  | _ => True

/-- What happens besides the database: the journal grows by silent effects, and cached
contacts disappear or appear under fresh tokens. -/
structure Side (v w : World) : Prop where
  now : w.now = v.now
  nextToken : v.nextToken ≤ w.nextToken
  pendingContact : ∀ t, w.pendingContact t = v.pendingContact t ∨ w.pendingContact t = none ∨
    (v.nextToken ≤ t ∧ t < w.nextToken)
  journal : ∃ l, w.journal = l ++ v.journal ∧ ∀ x ∈ l, x.Silent

namespace Side

theorem refl (w : World) : Side w w :=
  ⟨rfl, Nat.le_refl _, fun _ => .inl rfl, [], rfl, by simp⟩

theorem of_eq {v w : World} (h₁ : w.now = v.now) (h₂ : w.nextToken = v.nextToken)
    (h₃ : w.pendingContact = v.pendingContact) (h₄ : w.journal = v.journal) : Side v w :=
  ⟨h₁, h₂.ge, fun t => .inl (congrFun h₃ t), [], h₄, by simp⟩

theorem trans (u v w : World) (h : Side u v) (k : Side v w) : Side u w where
  now := k.now.trans h.now
  nextToken := h.nextToken.trans k.nextToken
  pendingContact t := by
    have ht := h.pendingContact t
    have kt := k.pendingContact t
    have hv := h.nextToken
    have hw := k.nextToken
    rcases kt with kt | kt | kt
    · rw [kt]
      rcases ht with ht | ht | ht
      · exact .inl ht
      · exact .inr (.inl ht)
      · exact .inr (.inr ⟨ht.1, by omega⟩)
    · exact .inr (.inl kt)
    · exact .inr (.inr ⟨by omega, kt.2⟩)
  journal := by
    obtain ⟨l, hl, hs⟩ := h.journal
    obtain ⟨m, hm, ht⟩ := k.journal
    refine ⟨m ++ l, by rw [hm, hl, List.append_assoc], fun x hx => ?_⟩
    rcases List.mem_append.1 hx with hx | hx
    · exact ht x hx
    · exact hs x hx

theorem log {w : World} {x : Effect} (hx : x.Silent) : Side w (w.log x) :=
  ⟨rfl, Nat.le_refl _, fun _ => .inl rfl, [x], rfl, by simpa using hx⟩

theorem logged {v w : World} {x : Effect} (h : Side v w) (hx : x.Silent) : Side v (w.log x) :=
  trans _ _ _ h (.log hx)

theorem forget (w : World) (t : Nat) : Side w (w.dropPending t) where
  now := rfl
  nextToken := Nat.le_refl _
  pendingContact s := by
    by_cases h : s = t
    · subst h; simp [World.dropPending]
    · simp [World.dropPending, h]
  journal := ⟨[], rfl, by simp⟩

theorem cache (w : World) (p : PendingUser) : Side w (w.cachePending p) where
  now := rfl
  nextToken := Nat.le_succ _
  pendingContact s := by
    by_cases h : s = w.nextToken
    · exact .inr (.inr ⟨h.ge, by simp [h]⟩)
    · simp [World.cachePending, h]
  journal := ⟨[], rfl, by simp⟩

theorem pendingContact_of_lt {v w : World} {t : Nat} (h : Side v w) (ht : t < v.nextToken) :
    w.pendingContact t = v.pendingContact t ∨ w.pendingContact t = none := by
  rcases h.pendingContact t with e | e | e
  · exact .inl e
  · exact .inr e
  · exact absurd e.1 (by omega)

theorem rollback {v w : World} (h : Side v w) : Side v (World.rollback v w) :=
  ⟨h.now, h.nextToken, h.pendingContact, h.journal⟩

end Side

def Hush (v w : World) : Prop := Side v w ∧ w.db = v.db

namespace Hush

theorem refl (w : World) : Hush w w := ⟨.refl w, rfl⟩

theorem trans (u v w : World) (h : Hush u v) (k : Hush v w) : Hush u w :=
  ⟨Side.trans u v w h.1 k.1, k.2.trans h.2⟩

theorem log {w : World} {x : Effect} (hx : x.Silent) : Hush w (w.log x) := ⟨.log hx, rfl⟩

end Hush

theorem moves_side {b : Query α} (h : b.Moves Hush) : b.Moves Side :=
  fun w => (h w).mono fun _ _ hw => hw.1

/-! What each query does: when it succeeds (`ends_`), and besides the database (`moves_`). -/

namespace Query

variable {i : Nat} {e : EventId} {u : UserId} {w : World}

@[simp] theorem ends_clock {K : Nat → World → Prop} : clock.Ends K w ↔ K w.now w :=
  Block.ends_observe

@[simp] theorem ends_note {x : Effect} {K : Unit → World → Prop} :
    (note x).Ends K w ↔ K () (w.log x) := Block.ends_record

@[simp] theorem ends_findInvitation {K : Option Invitation → World → Prop} :
    (findInvitation i).Ends K w ↔ K (w.row i) w := by simp [findInvitation]

@[simp] theorem ends_findManyInvitations {p : Invitation → Bool}
    {K : List Invitation → World → Prop} :
    (findManyInvitations p).Ends K w ↔ K (w.db.invitations.select p) w := by
  simp [findManyInvitations]

@[simp] theorem ends_createInvitation {r : Invitation} {K : Invitation → World → Prop} :
    (createInvitation r).Ends K w ↔ ∀ h : w.db.invitations.ParentExists r.invitedByInvitationId,
      K ((r.stamped w.now).withId w.db.invitations.next)
        (w.setInvitations (w.db.invitations.insert (r.stamped w.now) h)) := by
  rw [createInvitation, Block.ends_call]
  constructor
  · intro h hp
    simpa [hp] using h
  · intro h a
    split
    · rename_i hp
      rintro ⟨⟩
      exact h hp
    · rintro ⟨⟩

theorem ends_update {d : InvitationUpdate} {K : Invitation → World → Prop} :
    (updateInvitation i d).Ends K w ↔ ∀ r, w.row i = some r → d.fits r = true →
      K (d.apply w.now r) (w.setInvitations (w.db.invitations.patch i d w.now)) := by
  rw [updateInvitation, Block.ends_call]
  cases h : w.row i with
  | none => simp
  | some r => cases hd : d.fits r <;> simp [hd]

@[simp] theorem ends_updateInvitation {d : InvitationUpdate} {K : Invitation → World → Prop}
    (hd : d.maxInvitees = none) : (updateInvitation i d).Ends K w ↔ ∀ r, w.row i = some r →
      K (d.apply w.now r) (w.setInvitations (w.db.invitations.patch i d w.now)) := by
  rw [ends_update]
  simp only [d.fits_of_none _ hd, true_imp_iff]

@[simp] theorem ends_updateManyInvitations {p : Invitation → Bool} {d : InvitationUpdate}
    {K : Nat → World → Prop} :
    (updateManyInvitations i p d).Ends K w ↔
      ((w.row i).any p = true → K 1 (w.setInvitations (w.db.invitations.patch i d w.now))) ∧
      ((w.row i).any p = false → K 0 w) := by
  rw [updateManyInvitations, Block.ends_call]
  cases h : (w.row i).any p <;> simp

@[simp] theorem ends_deleteInvitation {K : Invitation → World → Prop} :
    (deleteInvitation i).Ends K w ↔ ∀ r, w.row i = some r →
      K r (w.setInvitations (w.db.invitations.remove (· == i))) := by
  rw [deleteInvitation, Block.ends_call]
  cases h : w.row i with
  | none => simp
  | some r => simp

@[simp] theorem ends_countInvitations {p : Invitation → Bool} {K : Nat → World → Prop} :
    (countInvitations p).Ends K w ↔ K (w.db.invitations.select p).length w := by
  simp [countInvitations]

@[simp] theorem ends_findSettings {K : Option EventSettings → World → Prop} :
    (findSettings e).Ends K w ↔ K (w.db.settings e) w := by simp [findSettings]

@[simp] theorem ends_findRole {K : Option EventRole → World → Prop} :
    (findRole e u).Ends K w ↔ K (w.db.roles e u) w := by simp [findRole]

@[simp] theorem ends_findAccess {K : Option EventAccess → World → Prop} :
    (findAccess e u).Ends K w ↔ K (w.db.access e u) w := by simp [findAccess]

@[simp] theorem ends_enqueue {ctx : Context} {topic : String} {fact : AnalyticsFact}
    {K : Unit → World → Prop} :
    (enqueue ctx topic fact).Ends K w ↔ ∀ t, ctx.tenantId = some t →
      K () (w.addFacts [⟨t, topic, ctx.actorId, w.now, fact⟩]) := by
  cases h : ctx.tenantId with
  | none => simp [enqueue, h]
  | some t => simpa [enqueue, h] using ⟨fun k => k (), fun k _ => k⟩

@[simp] theorem ends_cacheSet {p : PendingUser} {K : Nat → World → Prop} :
    (cacheSet p).Ends K w ↔ K w.nextToken (w.cachePending p) := by simp [cacheSet]

@[simp] theorem ends_cacheDelete {t : Nat} {K : Unit → World → Prop} :
    (cacheDelete t).Ends K w ↔ K () (w.dropPending t) := by
  simpa [cacheDelete] using ⟨fun k => k (), fun k _ => k⟩

@[simp] theorem ends_send {cfg : Config} {ctx : Context} {m : Message} {a : Option UserId}
    {K : Unit → World → Prop} :
    (send cfg ctx m a).Ends K w ↔ K () (w.log (.produced m a (currentTenantId cfg ctx))) := by
  simpa [send] using ⟨fun k => k (), fun k _ => k⟩

@[simp] theorem ends_inResendCooldown {K : Bool → World → Prop} :
    (inResendCooldown i).Ends K w ↔ K (w.resendCooldown i) w := by simp [inResendCooldown]

@[simp] theorem ends_cacheGet {t : Nat} {K : Option PendingUser → World → Prop} :
    (cacheGet t).Ends K w ↔ K (w.pendingContact t) w := by simp [cacheGet]

@[simp] theorem ends_ensureExists {K : Invitation → World → Prop} :
    (ensureExists i).Ends K w ↔ ∀ r, w.row i = some r → K r w := by
  cases h : w.row i <;> simp [ensureExists, h]

@[simp] theorem ends_assertMatchesActiveEvent {a : Option EventId} {K : Unit → World → Prop} :
    (AdminWrite.assertMatchesActiveEvent e a).Ends K w ↔ (a = some e → K () w) := by
  cases a with
  | none => simp [AdminWrite.assertMatchesActiveEvent]
  | some b =>
    by_cases h : e = b
    · simp [AdminWrite.assertMatchesActiveEvent, h]
    · simp [AdminWrite.assertMatchesActiveEvent, h, eq_comm]

theorem looks_findInvitation : (findInvitation i).Looks := Block.looks_call fun _ => rfl

theorem looks_findRole : (findRole e u).Looks := Block.looks_call fun _ => rfl

theorem looks_findAccess : (findAccess e u).Looks := Block.looks_call fun _ => rfl

theorem looks_ensureExists : (ensureExists i).Looks :=
  looks_findInvitation.bind fun r => by
    cases r <;> exact Prog.looks_ret _

theorem looks_assertMatchesActiveEvent {a : Option EventId} :
    (AdminWrite.assertMatchesActiveEvent e a).Looks := by
  unfold AdminWrite.assertMatchesActiveEvent
  split
  · exact Prog.looks_ret _
  · split <;> exact Prog.looks_ret _

theorem hush_call {ε : Exception} {f : World → Except Exception α × World}
    (h : ∀ w, Hush w (f w).2) : (Block.call ε f).Moves Hush :=
  Block.moves_call Hush.refl h

theorem hush_ret (r : Except Exception α) : (Prog.ret r : Query α).Moves Hush :=
  Prog.moves_ret Hush.refl r

theorem hush_findInvitation : (findInvitation i).Moves Hush := looks_findInvitation.moves Hush.refl

theorem hush_findManyInvitations {p : Invitation → Bool} :
    (findManyInvitations p).Moves Hush := hush_call Hush.refl

theorem hush_countInvitations {p : Invitation → Bool} : (countInvitations p).Moves Hush :=
  hush_call Hush.refl

theorem hush_findSettings : (findSettings e).Moves Hush := hush_call Hush.refl

theorem hush_findRole : (findRole e u).Moves Hush := looks_findRole.moves Hush.refl

theorem hush_findAccess : (findAccess e u).Moves Hush := looks_findAccess.moves Hush.refl

theorem hush_clock : clock.Moves Hush := Block.moves_observe Hush.refl

theorem hush_cacheSet {p : PendingUser} : (cacheSet p).Moves Hush :=
  hush_call fun w => ⟨Side.cache w p, rfl⟩

theorem hush_cacheGet {t : Nat} : (cacheGet t).Moves Hush := hush_call Hush.refl

theorem hush_cacheDelete {t : Nat} : (cacheDelete t).Moves Hush :=
  hush_call fun w => ⟨Side.forget w t, rfl⟩

theorem hush_inResendCooldown : (inResendCooldown i).Moves Hush := hush_call Hush.refl

theorem hush_setResendCooldown : (setResendCooldown i).Moves Hush :=
  hush_call fun _ => ⟨Side.of_eq rfl rfl rfl rfl, rfl⟩

theorem hush_acquireLock {l : Lock} : (acquireLock l).Moves Hush :=
  hush_call fun w => by
    split
    · exact Hush.refl w
    · exact ⟨Side.of_eq rfl rfl rfl rfl, rfl⟩

theorem hush_releaseLock {l : Lock} {t : Nat} : (releaseLock l t).Moves Hush :=
  hush_call fun w => by
    split
    · exact ⟨Side.of_eq rfl rfl rfl rfl, rfl⟩
    · exact Hush.refl w

theorem hush_send {cfg : Config} {ctx : Context} {m : Message} {a : Option UserId}
    (h : (Effect.produced m a (currentTenantId cfg ctx)).Silent) :
    (send cfg ctx m a).Moves Hush := hush_call fun _ => Hush.log h

theorem hush_remind {actorId : Option UserId} {preset : Option String} {delayMs : Nat} :
    (schedule (.remind i actorId preset) delayMs).Moves Hush :=
  hush_call fun _ => Hush.log trivial

theorem hush_grantGuestAccess {actorId : UserId} : (grantGuestAccess e u actorId).Moves Hush :=
  hush_call fun _ => Hush.log trivial

theorem hush_setSignupMarker : (setSignupMarker i u).Moves Hush :=
  hush_call fun _ => Hush.log trivial

theorem hush_ensureExists : (ensureExists i).Moves Hush := looks_ensureExists.moves Hush.refl

theorem hush_assertMatchesActiveEvent {a : Option EventId} :
    (AdminWrite.assertMatchesActiveEvent e a).Moves Hush :=
  looks_assertMatchesActiveEvent.moves Hush.refl

/-! A write fails without effect, or changes the database alone. -/

theorem moves_createInvitation {r : Invitation} : (createInvitation r).Moves Side :=
  Block.moves_call Side.refl fun w => by
    split
    · exact Side.of_eq rfl rfl rfl rfl
    · exact Side.refl w

theorem moves_update {S : World → World → Prop} {d : InvitationUpdate} (hS : ∀ w, S w w)
    (h : ∀ w : World, S w (w.setInvitations (w.db.invitations.patch i d w.now))) :
    (updateInvitation i d).Moves S :=
  Block.moves_call hS fun w => by
    split
    · split
      · exact h w
      · exact hS w
    · exact hS w

theorem moves_updateInvitation {d : InvitationUpdate} : (updateInvitation i d).Moves Side :=
  moves_update Side.refl fun _ => Side.of_eq rfl rfl rfl rfl

theorem moves_updateManyInvitations {p : Invitation → Bool} {d : InvitationUpdate} :
    (updateManyInvitations i p d).Moves Side :=
  Block.moves_call Side.refl fun w => by
    split
    · exact Side.of_eq rfl rfl rfl rfl
    · exact Side.refl w

theorem moves_deleteManyInvitations {p : Invitation → Bool} :
    (deleteManyInvitations p).Moves Side :=
  Block.moves_call Side.refl fun _ => Side.of_eq rfl rfl rfl rfl

theorem moves_deleteInvitation : (deleteInvitation i).Moves Side :=
  Block.moves_call Side.refl fun w => by
    split
    · exact Side.of_eq rfl rfl rfl rfl
    · exact Side.refl w

theorem moves_enqueue {ctx : Context} {topic : String} {fact : AnalyticsFact} :
    (enqueue ctx topic fact).Moves Side := by
  unfold enqueue
  split
  · exact Prog.moves_ret Side.refl _
  · exact Block.moves_call Side.refl fun w => Side.of_eq rfl rfl rfl rfl

theorem post_update {d : InvitationUpdate} {Q : Except Exception Invitation → World → Prop}
    (herr : ∀ e, Q (.error e) w) (h : ∀ r, w.row i = some r →
      Q (.ok (d.apply w.now r)) (w.setInvitations (w.db.invitations.patch i d w.now))) :
    (updateInvitation i d).Post Q w := by
  refine Block.post_call.2 ⟨herr _, ?_⟩
  cases hr : w.row i with
  | none => exact herr _
  | some r =>
    dsimp only
    split
    · exact h r hr
    · exact herr _

theorem post_update_refused {d : InvitationUpdate} {r : Invitation}
    {Q : Except Exception Invitation → World → Prop} (hr : w.row i = some r)
    (hd : d.fits r = false) (herr : ∀ e, Q (.error e) w) : (updateInvitation i d).Post Q w := by
  refine Block.post_call.2 ⟨herr _, ?_⟩
  simp only [hr, hd, Bool.false_eq_true, if_false]
  exact herr _

theorem post_updateInvitation {d : InvitationUpdate}
    {Q : Except Exception Invitation → World → Prop} (hd : d.maxInvitees = none) :
    (updateInvitation i d).Post Q w ↔ Q (.error (.dependency .database)) w ∧
      (∀ r, w.row i = some r →
        Q (.ok (d.apply w.now r)) (w.setInvitations (w.db.invitations.patch i d w.now))) ∧
      (w.row i = none → Q (.error .recordNotFound) w) := by
  rw [updateInvitation, Block.post_call]
  cases h : w.row i <;> simp [d.fits_of_none _ hd]

theorem post_updateManyInvitations {p : Invitation → Bool} {d : InvitationUpdate}
    {Q : Except Exception Nat → World → Prop} :
    (updateManyInvitations i p d).Post Q w ↔ Q (.error (.dependency .database)) w ∧
      ((w.row i).any p = true →
        Q (.ok 1) (w.setInvitations (w.db.invitations.patch i d w.now))) ∧
      ((w.row i).any p = false → Q (.ok 0) w) := by
  rw [updateManyInvitations, Block.post_call]
  cases h : (w.row i).any p <;> simp

theorem post_deleteInvitation {Q : Except Exception Invitation → World → Prop} :
    (deleteInvitation i).Post Q w ↔ Q (.error (.dependency .database)) w ∧
      (∀ r, w.row i = some r →
        Q (.ok r) (w.setInvitations (w.db.invitations.remove (· == i)))) ∧
      (w.row i = none → Q (.error .recordNotFound) w) := by
  rw [deleteInvitation, Block.post_call]
  cases h : w.row i <;> simp

@[simp] theorem post_clock {Q : Except Exception Nat → World → Prop} :
    clock.Post Q w ↔ Q (.ok w.now) w := Block.post_observe

@[simp] theorem post_note {x : Effect} {Q : Except Exception Unit → World → Prop} :
    (note x).Post Q w ↔ Q (.ok ()) (w.log x) := Block.post_record

@[simp] theorem post_send {cfg : Config} {ctx : Context} {m : Message} {a : Option UserId}
    {Q : Except Exception Unit → World → Prop} :
    (send cfg ctx m a).Post Q w ↔ Q (.error (.dependency .kafka)) w ∧
      Q (.ok ()) (w.log (.produced m a (currentTenantId cfg ctx))) := Block.post_call

end Query
end InvitationService

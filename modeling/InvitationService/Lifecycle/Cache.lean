import InvitationService.Lifecycle.Removal

open Relation (ReflTransGen)

namespace InvitationService

open Resumption Query

/-! What a call leaves in the cache. -/

/-- The invitation that the contact cached under `token` is for. -/
def World.cachedFor (w : World) (token : Nat) : Option Nat :=
  (w.pendingContact token).map (·.invitationId)

def Caches (N : Nat → Prop) (v w : World) : Prop :=
  ∀ token i, w.cachedFor token = some i → v.cachedFor token = some i ∨ N i

abbrev Sheds : World → World → Prop := Caches fun _ => False

structure Rests (v w : World) : Prop where
  invitations : w.db.invitations = v.db.invitations
  sheds : Sheds v w

variable {cfg : Config} {ctx : Context} {N N' : Nat → Prop} {s t u v w : World} {token i : Nat}

namespace Caches

theorem of_eq (h : w.pendingContact = v.pendingContact) : Caches N v w := fun token i hi =>
  .inl (by rwa [World.cachedFor, ← h])

theorem refl (w : World) : Caches N w w := of_eq rfl

theorem trans (s t u : World) (h : Caches N s t) (k : Caches N t u) : Caches N s u :=
  fun token i hi => (k token i hi).elim (h token i) .inr

theorem mono (h : Caches N v w) (hN : ∀ i, N i → N' i) : Caches N' v w := fun token i hi =>
  (h token i hi).imp_right (hN i)

theorem cache {p : PendingUser} (hp : N p.invitationId) : Caches N w (w.cachePending p) := by
  intro token i hi
  by_cases ht : token = w.nextToken
  · subst ht
    rw [World.cachedFor, World.cachePending_self] at hi
    cases hi
    exact .inr hp
  · exact .inl (by simpa [World.cachedFor, World.cachePending, ht] using hi)

theorem rollback (h : Caches N v w) : Caches N v (World.rollback v w) := h

end Caches

theorem Sheds.caches (h : Sheds v w) : Caches N v w := h.mono fun _ => False.elim

theorem Sheds.cachedFor (h : Sheds v w) (hi : w.cachedFor token = some i) :
    v.cachedFor token = some i := (h token i hi).elim id False.elim

theorem cachedFor_dropPending : (w.dropPending token).cachedFor token = none := by
  simp [World.cachedFor, World.dropPending]

theorem Sheds.drop : Sheds w (w.dropPending token) := by
  intro other i hi
  by_cases h : other = token
  · rw [h, cachedFor_dropPending] at hi
    cases hi
  · exact .inl (by simpa [World.cachedFor, World.dropPending, h] using hi)

namespace Rests

theorem of_eq (h₁ : w.db.invitations = v.db.invitations)
    (h₂ : w.pendingContact = v.pendingContact) :
    Rests v w := ⟨h₁, .of_eq h₂⟩

theorem refl (w : World) : Rests w w := of_eq rfl rfl

theorem trans (s t u : World) (h : Rests s t) (k : Rests t u) : Rests s u :=
  ⟨k.invitations.trans h.invitations, .trans s t u h.sheds k.sheds⟩

theorem drop : Rests w (w.dropPending token) := ⟨rfl, .drop⟩

theorem of_environment (h : World.Environment v w) : Rests v w := by
  cases h with
  | forget token => exact .drop
  | _ => exact .of_eq rfl rfl

theorem of_environments (h : ReflTransGen World.Environment v w) : Rests v w := by
  induction h with
  | refl => exact .refl v
  | tail _ he ih => exact ih.trans _ _ _ (.of_environment he)

end Rests

structure Absorbs (S : World → World → Prop) : Prop where
  trans : ∀ s t u, S s t → S t u → S s u
  rests : ∀ s t, Rests s t → S s t

theorem absorbs_rests : Absorbs Rests := ⟨Rests.trans, fun _ _ h => h⟩

theorem absorbs_caches : Absorbs (Caches N) := ⟨Caches.trans, fun _ _ h => h.sheds.caches⟩

namespace Absorbs

variable {S : World → World → Prop} (hS : Absorbs S) {α β : Type} {b : Query α} {p : Program α}
  {g : α → Program β}

include hS

theorem ret (r : Except Exception α) : (Prog.ret r : Program α).Drifts Rests S :=
  Prog.drifts_ret (fun s => hS.rests s s (.refl s)) r

theorem seq (hp : p.Drifts Rests S) (hg : ∀ a, (g a).Drifts Rests S) : (p >>= g).Drifts Rests S :=
  hp.bind hS.trans hg

theorem perform (hb : b.Moves S) : (Resumption.perform b).Drifts Rests S :=
  drifts_perform hS.trans hS.rests hb

theorem forM {γ : Type} {g : γ → Program PUnit} {xs : List γ}
    (hg : ∀ x ∈ xs, (g x).Drifts Rests S) :
    (xs.forM g).Drifts Rests S :=
  .forM (fun s => hS.rests s s (.refl s)) hS.trans hg

theorem of_rests (hp : p.Drifts Rests Rests) : p.Drifts Rests S := fun s =>
  Prog.Guarantees.weaken (hp s) fun _ t h => hS.rests s t h

theorem rest (hb : b.Moves Rests) : (Resumption.perform b).Drifts Rests S := hS.of_rests <|
  drifts_perform Rests.trans (fun _ _ h => h) hb

theorem query (hb : b.Moves Rests) : b.Moves S := fun s => (hb s).mono fun _ t h => hS.rests s t h

theorem look {k : α → Query β} (hb : b.Moves Rests) (hk : ∀ a, (k a).Moves S) : (b >>= k).Moves S :=
  (hS.query hb).bind hS.trans hk

theorem after (hp : p.Drifts Rests S) (h : S s t) :
    p.Guarantees Rests (fun _ _ => True) (fun _ u => S s u) t :=
  (hp t).weaken fun _ u hu => hS.trans s t u h hu

theorem read (hb : b.Moves Rests)
    (h : ∀ t, Rests s t → b.Ends (fun a u => Rests s u → (g a).Drifts Rests S) t) :
    (Resumption.perform b >>= g).Guarantees Rests (fun _ _ => True) (fun _ t => S s t) s :=
  guarantees_perform_bind Rests.trans (fun _ _ h => h) hb (.refl s) (fun _ u => hS.rests s u)
    fun t ht => (h t ht).mono fun _ u hu hsu => hS.after (hu hsu) (hS.rests s u hsu)

end Absorbs

theorem transaction_rests {α : Type} {b : Query α} (hb : b.Moves Rests) :
    (Query.transaction b).Drifts Rests Rests :=
  drifts_transaction Rests.trans (fun _ _ h => h) hb fun _ _ h => ⟨rfl, h.sheds⟩

theorem transaction_caches {α : Type} {b : Query α} (hb : b.Moves (Caches N)) :
    (Query.transaction b).Drifts Rests (Caches N) :=
  drifts_transaction Caches.trans (fun _ _ h => h.sheds.caches) hb fun _ _ h => h.rollback

theorem drifts_of_sheds {α : Type} {p : Program α} (hp : p.Drifts Rests Sheds) :
    p.Drifts Rests (Caches N) := fun s => (hp s).weaken fun _ _ h => h.caches

/-! The queries. -/

section

variable {α : Type} {ε : Exception} {f : World → Except Exception α × World}
  {e : EventId} {u : UserId}
  {r : Invitation} {d : InvitationUpdate} {q : Invitation → Bool}

theorem rests_call (h₁ : ∀ w, (f w).2.db.invitations = w.db.invitations)
    (h₂ : ∀ w, (f w).2.pendingContact = w.pendingContact) : (Block.call ε f).Moves Rests :=
  Block.moves_call Rests.refl fun w => .of_eq (h₁ w) (h₂ w)

theorem rests_ret (r : Except Exception α) : (Prog.ret r : Query α).Moves Rests :=
  Prog.moves_ret Rests.refl r

theorem rests_findInvitation : (findInvitation i).Moves Rests :=
    looks_findInvitation.moves Rests.refl

theorem rests_findManyInvitations : (findManyInvitations q).Moves Rests :=
  rests_call (fun _ => rfl) fun _ => rfl

theorem rests_findSettings : (findSettings e).Moves Rests := rests_call (fun _ => rfl) fun _ => rfl

theorem rests_clock : clock.Moves Rests := Block.moves_observe Rests.refl

theorem rests_note {x : Effect} : (note x).Moves Rests :=
  Block.moves_record fun _ => .of_eq rfl rfl

theorem rests_send {m : Message} {a : Option UserId} : (send cfg ctx m a).Moves Rests :=
  rests_call (fun _ => rfl) fun _ => rfl

theorem rests_schedule {j : Job} {delayMs : Nat} : (schedule j delayMs).Moves Rests :=
  rests_call (fun _ => rfl) fun _ => rfl

theorem rests_grantGuestAccess {a : UserId} : (grantGuestAccess e u a).Moves Rests :=
  rests_call (fun _ => rfl) fun _ => rfl

theorem rests_enqueue {topic : String} {fact : AnalyticsFact} :
    (enqueue ctx topic fact).Moves Rests := by
  unfold enqueue
  split
  · exact rests_ret _
  · exact rests_call (fun _ => rfl) fun _ => rfl

theorem rests_cacheDelete : (cacheDelete token).Moves Rests :=
  Block.moves_call Rests.refl fun _ => .drop

theorem rests_ensureExists : (ensureExists i).Moves Rests := looks_ensureExists.moves Rests.refl

theorem rests_assertMatchesActiveEvent {a : Option EventId} :
    (AdminWrite.assertMatchesActiveEvent e a).Moves Rests :=
  looks_assertMatchesActiveEvent.moves Rests.refl

theorem sheds_call (h : ∀ w, (f w).2.pendingContact = w.pendingContact) :
    (Block.call ε f).Moves Sheds := Block.moves_call Caches.refl fun w => .of_eq (h w)

theorem sheds_createInvitation : (createInvitation r).Moves Sheds :=
  sheds_call fun w => by split <;> rfl

theorem sheds_updateInvitation : (updateInvitation i d).Moves Sheds :=
  moves_update Caches.refl fun _ => .of_eq rfl

theorem sheds_updateManyInvitations : (updateManyInvitations i q d).Moves Sheds :=
  sheds_call fun w => by split <;> rfl

theorem sheds_deleteInvitation : (deleteInvitation i).Moves Sheds :=
  sheds_call fun w => by split <;> rfl

theorem caches_of_sheds {b : Query α} (hb : b.Moves Sheds) : b.Moves (Caches N) := fun s =>
  (hb s).mono fun _ _ h => h.caches

theorem caches_cacheSet {p : PendingUser} (hp : N p.invitationId) : (cacheSet p).Moves (Caches N) :=
  Block.moves_call Caches.refl fun _ => .cache hp

end

namespace GuestConfirmation

theorem rests_emitConfirmGuest {r : Invitation} {seatId : Option SeatId} {actorId : Option UserId}
    {operation : String} :
    (emitConfirmGuest cfg ctx r token seatId actorId operation).Moves Rests :=
  rests_clock.bind Rests.trans fun _ => rests_send

theorem scheduleReminders_rests {actorId : Option UserId} :
    (scheduleReminders cfg i actorId).Drifts Rests Rests := by
  unfold scheduleReminders
  simp only [liftM_eq]
  refine absorbs_rests.seq (absorbs_rests.rest rests_findInvitation) fun o => ?_
  refine absorbs_rests.seq ?_ fun settings => ?_
  · cases o with
    | none => exact absorbs_rests.ret _
    | some r => exact absorbs_rests.rest rests_findSettings
  · refine absorbs_rests.seq (absorbs_rests.rest rests_clock) fun now => ?_
    split
    · exact absorbs_rests.forM fun _ _ => absorbs_rests.rest rests_schedule
    · exact .ite (absorbs_rests.ret _) (absorbs_rests.rest rests_schedule)

theorem requestSeatReservation_rests {actorId : Option UserId} :
    (requestSeatReservation cfg ctx i actorId).Drifts Rests Rests := by
  unfold requestSeatReservation
  simp only [liftM_eq]
  refine absorbs_rests.seq (absorbs_rests.rest rests_findInvitation) fun o => ?_
  cases o with
  | none => exact absorbs_rests.ret _
  | some r =>
    exact .ite (absorbs_rests.ret _) (.ite (absorbs_rests.ret _)
      (absorbs_rests.seq (absorbs_rests.rest rests_send) fun _ => absorbs_rests.ret _))

theorem recordResentAnalytics_rests : (recordResentAnalytics ctx i).Drifts Rests Rests :=
  transaction_rests rests_enqueue

end GuestConfirmation

namespace AdminWrite

variable {S : World → World → Prop} {input : ApproveInvitationDTO}

theorem rests_checkApproval : (checkApproval input).Moves Rests :=
  looks_checkApproval.moves Rests.refl

theorem confirmApproval_drifts (hS : Absorbs S) {r : Invitation} {settings : Option EventSettings}
    (hsend : (GuestConfirmation.sendFirstConfirmationOrReserve cfg ctx input.id input.seatId
      (some input.actorId) input.locale).Drifts Rests S) :
    (confirmApproval cfg ctx input r settings).Drifts Rests S := by
  have hsend' : (do
      let _ ← GuestConfirmation.sendFirstConfirmationOrReserve cfg ctx input.id input.seatId
        (some input.actorId) input.locale
      pure () : Program Unit).Drifts Rests S := hS.seq hsend fun _ => hS.ret _
  unfold confirmApproval
  simp only [liftM_eq]
  refine .ite (hS.ret _) (.ite (hS.ret _) (hS.seq (hS.rest rests_clock) fun now => ?_))
  split
  · exact .ite (hS.rest rests_schedule) hsend'
  · exact hsend'

theorem afterWrite_drifts (hS : Absorbs S) {r : Invitation}
    (hsend : (GuestConfirmation.sendFirstConfirmationOrReserve cfg ctx input.id input.seatId
      (some input.actorId) input.locale).Drifts Rests S) :
    (afterWrite cfg ctx input r).Drifts Rests S := by
  unfold afterWrite
  simp only [liftM_eq]
  refine hS.seq (hS.rest rests_findSettings) fun settings => ?_
  refine hS.seq (hS.rest rests_clock) fun now => hS.seq (hS.rest rests_send) fun _ => ?_
  exact .ite (hS.seq (confirmApproval_drifts hS hsend) fun _ => hS.ret _) (hS.ret _)

theorem approve_drifts (hS : Absorbs S) (ha : input.approve = true)
    (hwrite : (writeApproval input).Moves S)
    (hsend : (GuestConfirmation.sendFirstConfirmationOrReserve cfg ctx input.id input.seatId
      (some input.actorId) input.locale).Drifts Rests S) :
    (approve cfg ctx input).Drifts Rests S := by
  rw [approve_eq ha]
  refine hS.seq (hS.rest rests_checkApproval) fun r => hS.seq ?_ fun _ =>
    hS.seq (hS.perform hwrite) fun updated => afterWrite_drifts hS hsend
  unfold grantOnApproval
  split
  · exact hS.rest rests_grantGuestAccess
  · exact hS.ret _

theorem approve_sheds (ha : input.approve = true) (hseat : truthy input.seatId = false) :
    (approve cfg ctx input).Drifts Rests Sheds := by
  refine approve_drifts absorbs_caches ha ?_ ?_
  · exact absorbs_caches.look rests_clock fun _ =>
      sheds_updateInvitation.bind Caches.trans fun _ =>
        absorbs_caches.query <| rests_note.bind Rests.trans fun _ => rests_ret _
  · unfold GuestConfirmation.sendFirstConfirmationOrReserve
    rw [if_neg (by simp [hseat])]
    exact absorbs_caches.of_rests GuestConfirmation.requestSeatReservation_rests

end AdminWrite

/-! The calls that cache nothing. -/

namespace AdminWrite

variable {S : World → World → Prop} {e : EventId} {user : UserId}

theorem create_sheds {input : InvitationCreateInput} {user : Option UserId} :
    (create cfg ctx input user).Drifts Rests Sheds := by
  unfold create
  cases input.eventId with
  | none => exact absorbs_caches.ret _
  | some e =>
    simp only [liftM_eq]
    refine .ite (absorbs_caches.ret _) (absorbs_caches.seq (absorbs_caches.rest rests_findSettings)
      fun settings => absorbs_caches.seq ?_ fun created =>
        absorbs_caches.seq (absorbs_caches.rest rests_send) fun _ => absorbs_caches.ret _)
    exact transaction_caches <| sheds_createInvitation.bind Caches.trans fun _ =>
      absorbs_caches.look rests_enqueue fun _ => absorbs_caches.query (rests_ret _)

theorem updatePlusOneLimit_sheds {input : UpdateInvitationPlusOneLimitInput} {e : Option EventId} :
    (updatePlusOneLimit input e).Drifts Rests Sheds := by
  refine .ite (absorbs_caches.ret _) (transaction_caches ?_)
  refine absorbs_caches.look rests_ensureExists fun r => ?_
  refine absorbs_caches.look rests_assertMatchesActiveEvent fun _ => ?_
  dsimp only
  split
  · exact absorbs_caches.query (rests_ret _)
  · refine (sheds_call fun _ => rfl).bind Caches.trans fun n => ?_
    split
    · exact absorbs_caches.query (rests_ret _)
    · exact sheds_updateInvitation

theorem delete_drifts (hS : Absorbs S) (hdel : (deleteInvitation i).Moves S) {e : Option EventId} :
    (delete i e).Drifts Rests S := by
  unfold delete
  simp only [liftM_eq]
  refine hS.seq (hS.rest <| rests_ensureExists.bind Rests.trans fun r =>
    rests_assertMatchesActiveEvent) fun _ => ?_
  exact hS.seq (hS.perform hdel) fun _ => hS.ret _

theorem deleteMany_drifts (hS : Absorbs S) (hdel : ∀ i, (deleteInvitation i).Moves S)
    (hundo : ∀ t u, S t u → S t (World.rollback t u)) {ids : List Nat} {e : Option EventId} :
    (deleteMany ids e).Drifts Rests S := by
  refine .ite (hS.ret _) (drifts_transaction hS.trans hS.rests (Prog.Moves.forM
    (fun s => hS.rests s s (.refl s)) hS.trans fun i => ?_) hundo)
  refine hS.look rests_ensureExists fun r => ?_
  refine hS.look rests_assertMatchesActiveEvent fun _ => ?_
  exact (hdel i).bind hS.trans fun _ => hS.query (rests_ret _)

theorem delete_sheds {e : Option EventId} : (delete i e).Drifts Rests Sheds :=
  delete_drifts absorbs_caches sheds_deleteInvitation

theorem deleteMany_sheds {ids : List Nat} {e : Option EventId} :
    (deleteMany ids e).Drifts Rests Sheds :=
  deleteMany_drifts absorbs_caches (fun _ => sheds_deleteInvitation) fun _ _ h => h.rollback

theorem bulkStage_sheds {ids : List Nat} {staged : Bool} {e : Option EventId} :
    (bulkStage ids staged e).Drifts Rests Sheds := by
  unfold bulkStage
  simp only [liftM_eq]
  refine absorbs_caches.seq (absorbs_caches.rest ?_) fun rs => transaction_caches <|
    Prog.Moves.forM Caches.refl Caches.trans fun r =>
      sheds_updateInvitation.bind Caches.trans fun _ => absorbs_caches.query (rests_ret _)
  refine rests_findManyInvitations.bind Rests.trans fun rs => ?_
  split
  · exact rests_ret _
  · refine (Prog.Moves.forM Rests.refl Rests.trans fun r => ?_).bind Rests.trans
      fun _ => rests_ret _
    refine rests_assertMatchesActiveEvent.bind Rests.trans fun _ => ?_
    split <;> exact rests_ret _

theorem importRow_sheds {firstName lastName : String} {cell : Option Cell} :
    (importRow ctx e user firstName lastName cell).Drifts Rests Sheds := by
  refine transaction_caches ?_
  split
  · exact absorbs_caches.query (rests_ret _)
  · dsimp only
    split
    · exact sheds_createInvitation.bind Caches.trans fun _ => absorbs_caches.query rests_enqueue
    · exact Prog.moves_ret Caches.refl _

theorem importRows_sheds (rows : List (CanonicalField → Option Cell)) (existingSet : List String) :
    (importRows ctx e user rows existingSet).Drifts Rests Sheds := by
  induction rows generalizing existingSet with
  | nil => exact absorbs_caches.ret _
  | cons row rows ih =>
    unfold importRows
    refine .ite (absorbs_caches.seq (ih _) fun _ => absorbs_caches.ret _) ?_
    exact absorbs_caches.seq importRow_sheds fun _ =>
      absorbs_caches.seq (ih _) fun _ => absorbs_caches.ret _

theorem importInvitations_sheds {uploadType : String} {sheet : Option Sheet} :
    (importInvitations cfg ctx e uploadType sheet user).Drifts Rests Sheds := by
  unfold importInvitations
  simp only [liftM_eq]
  refine absorbs_caches.seq (absorbs_caches.rest (rests_call (fun _ => rfl) fun _ =>
    rfl)) fun _ => ?_
  refine absorbs_caches.seq (absorbs_caches.rest ?_) fun sheet => .ite (absorbs_caches.ret _) ?_
  · unfold readSheet
    split
    · exact rests_ret _
    · split
      · split <;> exact rests_ret _
      · exact rests_ret _
  · exact absorbs_caches.seq (absorbs_caches.rest rests_findManyInvitations) fun _ =>
      absorbs_caches.seq (importRows_sheds _ _) fun _ => absorbs_caches.ret _

end AdminWrite

namespace GuestWrite

variable {p : Nat} {user : UserId}

theorem rests_ensureUserCanManage {o : Option UserId} :
    (ensureUserCanManageParentInvitation cfg p o).Moves Rests :=
  looks_ensureUserCanManage.moves Rests.refl

theorem rests_dropPendingContact {r : Invitation} : (dropPendingContact r).Moves Rests := by
  unfold dropPendingContact
  split
  · exact rests_cacheDelete
  · exact rests_ret _

theorem rests_publishGuestDeleted {r : Invitation} :
    (publishGuestDeleted cfg ctx r user).Moves Rests := by
  unfold publishGuestDeleted
  split
  · exact rests_send
  · exact rests_ret _

theorem updatePlusOne_sheds {input : UpdatePlusOneInput} :
    (updatePlusOne cfg input user).Drifts Rests Sheds := by
  unfold updatePlusOne
  cases input.id with
  | none => exact absorbs_caches.ret _
  | some i =>
    refine absorbs_caches.seq (absorbs_caches.ret _) fun _ => transaction_caches ?_
    refine absorbs_caches.look rests_ensureExists fun r => ?_
    refine absorbs_caches.look (rests_ret _) fun p => ?_
    exact absorbs_caches.look rests_ensureUserCanManage fun _ =>
      sheds_updateInvitation

theorem deletePlusOne_sheds : (deletePlusOne cfg ctx i user).Drifts Rests Sheds := by
  refine transaction_caches ?_
  refine absorbs_caches.look rests_ensureExists fun r => ?_
  refine absorbs_caches.look (rests_ret _) fun p => ?_
  refine absorbs_caches.look rests_ensureUserCanManage fun _ => ?_
  refine absorbs_caches.look rests_dropPendingContact fun _ => ?_
  refine sheds_deleteInvitation.bind Caches.trans fun x => ?_
  refine sheds_updateInvitation.bind Caches.trans fun _ => ?_
  exact absorbs_caches.query <| rests_publishGuestDeleted.bind Rests.trans fun _ => rests_ret _

theorem sheds_deleteChild {r : Invitation} : (deleteChild r).Moves Sheds :=
  absorbs_caches.look rests_dropPendingContact fun _ => sheds_deleteInvitation

theorem deleteAllPlusOnes_sheds : (deleteAllPlusOnes cfg ctx p user).Drifts Rests Sheds := by
  refine transaction_caches ?_
  refine absorbs_caches.look rests_ensureExists fun r => ?_
  refine absorbs_caches.look rests_ensureUserCanManage fun _ => ?_
  refine absorbs_caches.look rests_findManyInvitations fun rs => ?_
  refine (Prog.Moves.mapM' Caches.refl Caches.trans fun _ => sheds_deleteChild).bind Caches.trans
    fun rows => ?_
  refine sheds_updateInvitation.bind Caches.trans fun _ => absorbs_caches.query ?_
  dsimp only
  split
  · exact rests_send.bind Rests.trans fun _ => rests_ret _
  · exact rests_ret _

end GuestWrite

namespace InvitationWrite

theorem collectLevels_rests {n : Nat} {all queue : List Nat} :
    (collectLevels n all queue).Drifts Rests Rests := by
  induction n generalizing all queue with
  | zero => exact absorbs_rests.ret _
  | succ n ih =>
    cases queue with
    | nil => exact absorbs_rests.ret _
    | cons i queue =>
      exact absorbs_rests.seq (absorbs_rests.rest rests_findManyInvitations) fun _ => ih

theorem deleteByGuestId_drifts {S : World → World → Prop} (hS : Absorbs S)
    (hdel : ∀ q, (deleteManyInvitations q).Moves S) {user : UserId} :
    (deleteByGuestId user).Drifts Rests S := by
  unfold deleteByGuestId
  simp only [liftM_eq]
  refine hS.seq (hS.rest rests_findManyInvitations) fun rs =>
    .ite (hS.ret _) (hS.seq ?_ fun ids => hS.perform (hdel _))
  exact hS.seq (hS.rest (Block.moves_observe Rests.refl)) fun _ => hS.of_rests collectLevels_rests

theorem sheds_deleteManyInvitations {q : Invitation → Bool} :
    (deleteManyInvitations q).Moves Sheds := sheds_call fun _ => rfl

theorem deleteByGuestId_sheds {user : UserId} : (deleteByGuestId user).Drifts Rests Sheds :=
  deleteByGuestId_drifts absorbs_caches fun _ => sheds_deleteManyInvitations

theorem deleteByEventIds_sheds {es : List EventId} : (deleteByEventIds es).Drifts Rests Sheds :=
  .ite (absorbs_caches.ret _) (absorbs_caches.perform sheds_deleteManyInvitations)

theorem addGuestId_sheds {user : UserId} : (addGuestId i user).Drifts Rests Sheds :=
  absorbs_caches.seq (absorbs_caches.perform sheds_updateManyInvitations) fun _ =>
    .ite (absorbs_caches.ret _) (absorbs_caches.ret _)

end InvitationWrite

theorem handleAddGuestId_sheds {user : UserId} : (handleAddGuestId i user).Drifts Rests Sheds :=
  absorbs_caches.seq InvitationWrite.addGuestId_sheds fun _ =>
    absorbs_caches.rest (rests_call (fun _ => rfl) fun _ => rfl)

namespace EventRoleHandler

theorem handleUserAccessChanged_rests {payload : EventAccessDTO} :
    (handleUserAccessChanged payload).Drifts Rests Rests :=
  absorbs_rests.seq (absorbs_rests.rest (looks_findAccess.moves Rests.refl)) fun _ =>
    .ite (absorbs_rests.ret _) (absorbs_rests.rest (rests_call (fun _ => rfl) fun _ => rfl))

theorem rests_findRole {e : EventId} {u : UserId} : (findRole e u).Moves Rests :=
  looks_findRole.moves Rests.refl

theorem handleRoleAssigned_rests {payload : EventRoleAssignedDTO} :
    (handleRoleAssigned payload).Drifts Rests Rests :=
  absorbs_rests.seq (absorbs_rests.rest rests_findRole) fun _ =>
    .ite (absorbs_rests.ret _) (absorbs_rests.rest (rests_call (fun _ => rfl) fun _ => rfl))

theorem handleRoleRemoved_rests {payload : EventRoleRemovedDTO} :
    (handleRoleRemoved payload).Drifts Rests Rests :=
  absorbs_rests.seq (absorbs_rests.rest rests_findRole) fun _ =>
    .ite (absorbs_rests.ret _) (absorbs_rests.rest (rests_call (fun _ => rfl) fun _ => rfl))

theorem handleOwnerChanged_rests {payload : EventOwnerChangedDTO} :
    (handleOwnerChanged payload).Drifts Rests Rests := by
  have hnew : (do
      let existingNew ← perform (findRole payload.eventId payload.newOwnerId)
      if isStale payload.occurredAt (existingNew.bind (·.updatedAt)) then pure ()
      else perform (upsertRole payload.eventId payload.newOwnerId .admin) :
      Program Unit).Drifts Rests Rests :=
    absorbs_rests.seq (absorbs_rests.rest rests_findRole) fun _ =>
      .ite (absorbs_rests.ret _) (absorbs_rests.rest (rests_call (fun _ => rfl) fun _ => rfl))
  unfold handleOwnerChanged
  simp only [liftM_eq]
  cases payload.oldOwnerId with
  | none => exact hnew
  | some old =>
    refine absorbs_rests.seq (absorbs_rests.rest rests_findRole) fun _ => .ite ?_ hnew
    exact absorbs_rests.seq (absorbs_rests.rest (rests_call (fun _ => rfl) fun _ =>
      rfl)) fun _ => hnew

theorem handleEventDeleted_rests {es : List EventId} :
    (handleEventDeleted es).Drifts Rests Rests := by
  have hgone : ∀ {b : Query Unit}, b.Moves Rests → (perform b).attempt.Drifts Rests Rests :=
    fun hb s => Prog.Guarantees.attempt (absorbs_rests.rest hb s)
  unfold handleEventDeleted
  simp only [liftM_eq]
  refine absorbs_rests.seq (hgone (rests_call (fun _ => rfl) fun _ => rfl)) fun _ => ?_
  refine absorbs_rests.seq (hgone (rests_call (fun _ => rfl) fun _ => rfl)) fun _ => ?_
  refine absorbs_rests.seq (hgone (rests_call (fun _ => rfl) fun _ => rfl)) fun _ => ?_
  exact absorbs_rests.seq (absorbs_rests.ret _) fun _ =>
    absorbs_rests.seq (absorbs_rests.ret _) fun _ => absorbs_rests.ret _

end EventRoleHandler

namespace EventSettingsHandler

variable {tenantHeader : Option TenantId}

theorem rests_upsertSettings {e : EventId} {create update : EventSettingsData} :
    (upsertSettings e create update).Moves Rests := by
  refine Block.moves_call Rests.refl fun w => ?_
  dsimp only
  split
  · exact .of_eq rfl rfl
  · exact Rests.refl w

theorem handleEventCreated_rests {payload : EventCreatedDTO} :
    (handleEventCreated cfg payload tenantHeader).Drifts Rests Rests := by
  cases tenantHeader with
  | none => exact absorbs_rests.ret _
  | some t => exact absorbs_rests.rest rests_upsertSettings

theorem handleEventUpdated_rests {payload : EventUpdatedDTO} :
    (handleEventUpdated cfg payload tenantHeader).Drifts Rests Rests := by
  cases tenantHeader with
  | none => exact absorbs_rests.ret _
  | some t =>
    exact absorbs_rests.seq (absorbs_rests.rest rests_findSettings) fun _ =>
      .ite (absorbs_rests.ret _) (absorbs_rests.rest rests_upsertSettings)

end EventSettingsHandler

/-! The calls that cache a contact of their own. -/

namespace GuestWrite

variable {user : UserId} {locale : Locale}

theorem caches_attachPendingContact {p : PendingUser} (hp : N p.invitationId) :
    (attachPendingContact i p).Moves (Caches N) :=
  (caches_cacheSet hp).bind Caches.trans fun _ => caches_of_sheds sheds_updateInvitation

theorem rests_enqueueReply {r : Invitation} {isUpdate : Bool} {choice : RsvpChoice} {n : Nat} :
    (enqueueReply ctx r isUpdate choice n).Moves Rests := by
  refine rests_enqueue.bind Rests.trans fun _ => ?_
  split
  · exact rests_enqueue
  · exact rests_ret _

theorem caches_replyTransaction {r : Invitation} {plan : ReplyPlan} {now : Nat} {input : RSVPInput}
    (hN : plan.decision.needsContactDetails = true → N r.id) :
    (replyTransaction cfg ctx r plan now input locale).Moves (Caches N) := by
  have hrest : ∀ (updated : Invitation) (created : List Invitation), (do
      enqueueReply ctx updated r.rsvpChoice.isSome plan.decision.newChoice created.length
      pure (updated, created) : Query (Invitation × List Invitation)).Moves (Caches N) := fun _ _ =>
    absorbs_caches.query <| rests_enqueueReply.bind Rests.trans fun _ => rests_ret _
  refine (caches_of_sheds sheds_updateInvitation).bind Caches.trans fun updated => ?_
  refine (Prog.Moves.mapM' Caches.refl Caches.trans fun _ =>
    caches_of_sheds sheds_createInvitation).bind Caches.trans fun created => ?_
  dsimp only
  split
  · rename_i hneeds
    split
    · exact absorbs_caches.query (rests_ret _)
    · refine absorbs_caches.look rests_clock fun _ => ?_
      exact (caches_attachPendingContact (hN hneeds)).bind Caches.trans fun _ =>
        hrest updated created
  · exact hrest updated created

theorem reply_caches {input : RSVPInput}
    (hN : ∀ r plan, s.row input.invitationId = some r → planReply r input = .ok plan →
      plan.decision.needsContactDetails = true → N input.invitationId) :
    (reply cfg ctx input locale).Guarantees Rests (fun _ _ => True) (fun _ t =>
      Caches N s t) s := by
  unfold reply
  simp only [liftM_eq]
  refine absorbs_caches.read rests_ensureExists fun t ht => ends_ensureExists.2 fun r hr _ => ?_
  have hid : r.id = input.invitationId := t.db.invitations.id_eq hr
  have hr : s.row input.invitationId = some r := by rwa [World.row, ← ht.invitations]
  refine absorbs_caches.seq (absorbs_caches.rest rests_findSettings) fun settings => ?_
  cases hplan : planReply r input with
  | error e => exact absorbs_caches.ret _
  | ok plan =>
    rw [Prog.ok_bind]
    refine absorbs_caches.seq (absorbs_caches.rest rests_clock) fun now => ?_
    refine absorbs_caches.seq (transaction_caches <| caches_replyTransaction fun hneeds =>
      hid ▸ hN r plan hr hplan hneeds) fun result => ?_
    refine absorbs_caches.seq (absorbs_caches.forM fun _ _ => absorbs_caches.rest rests_send)
      fun _ => .ite ?_ (absorbs_caches.ret _)
    split
    · exact absorbs_caches.ret _
    · exact absorbs_caches.seq (drifts_of_sheds (AdminWrite.approve_sheds rfl rfl)) fun _ =>
        absorbs_caches.ret _

def Grows (v w : World) : Prop := v.db.invitations.next ≤ w.db.invitations.next ∧ Sheds v w

theorem Grows.trans (s t u : World) (h : Grows s t) (k : Grows t u) : Grows s u :=
  ⟨h.1.trans k.1, .trans s t u h.2 k.2⟩

theorem absorbs_grows : Absorbs Grows :=
  ⟨Grows.trans, fun _ _ h => ⟨h.invitations ▸ Nat.le_refl _, h.sheds⟩⟩

theorem grows_updateManyInvitations {q : Invitation → Bool} {d : InvitationUpdate} :
    (updateManyInvitations i q d).Moves Grows :=
  Block.moves_call (fun w => ⟨Nat.le_refl _, .refl w⟩) fun w => by
    split <;> exact ⟨Nat.le_refl _, .of_eq rfl⟩

theorem grows_createInvitation {r : Invitation} : (createInvitation r).Moves Grows :=
  Block.moves_call (fun w => ⟨Nat.le_refl _, .refl w⟩) fun w => by
    split
    · exact ⟨Nat.le_succ _, .of_eq rfl⟩
    · exact ⟨Nat.le_refl _, .refl w⟩

theorem post_grows {α β : Type} {b : Query α} {g : α → Query β} (hb : b.Moves Grows)
    (hw : Grows t w) (h : b.Ends (fun a u => Grows t u →
      (g a).Post (fun _ v => Caches (t.db.invitations.next ≤ ·) t v) u) w) :
    (b >>= g).Post (fun _ v => Caches (t.db.invitations.next ≤ ·) t v) w :=
  Prog.post_bind.2 <| ((hb w).and h).mono fun r u hr => by
    have hu := hw.trans _ _ _ hr.1
    cases r with
    | ok a => exact hr.2 hu
    | error e => exact hu.2.caches

theorem post_grows_any {α β : Type} {b : Query α} {g : α → Query β} (hb : b.Moves Grows)
    (hw : Grows t w) (h : ∀ a u, Grows t u →
      (g a).Post (fun _ v => Caches (t.db.invitations.next ≤ ·) t v) u) :
    (b >>= g).Post (fun _ v => Caches (t.db.invitations.next ≤ ·) t v) w :=
  post_grows hb hw <| (Prog.ends_true b).mono fun a u _ => h a u

theorem post_createPlusOneTransaction {input : CreatePlusOneInput} {e : EventId} {p : Nat} :
    (createPlusOneTransaction cfg ctx input e p user locale).Post
      (fun _ v => Caches (t.db.invitations.next ≤ ·) t v) t := by
  refine post_grows_any (absorbs_grows.query rests_ensureExists) ⟨Nat.le_refl _, .refl t⟩
    fun parent u hu => ?_
  split
  · exact hu.2.caches
  · refine post_grows_any (absorbs_grows.query rests_ensureUserCanManage) hu fun staff u hu => ?_
    split
    · exact hu.2.caches
    · refine post_grows_any grows_updateManyInvitations hu fun n u hu => ?_
      split
      · exact hu.2.caches
      · refine post_grows_any (absorbs_grows.query rests_findSettings) hu fun settings u hu => ?_
        refine post_grows_any (absorbs_grows.query rests_clock) hu fun now u hu => ?_
        refine post_grows grows_createInvitation hu <| ends_createInvitation.2 fun hp hv => ?_
        have hrest : ∀ child : Invitation, t.db.invitations.next ≤ child.id → ∀ autoApprove, (do
            let endsAt ← clock
            let updatedChild ← attachPendingContact child.id (plusOnePendingUser cfg ctx input e
              child.id (parent.eventEndsAt.getD endsAt) user locale)
            enqueue ctx "invitation.created.v1"
              (AdminWrite.invitationCreated updatedChild (some user) true)
            pure (updatedChild, autoApprove) : Query (Invitation × Bool)).Moves
              (Caches (t.db.invitations.next ≤ ·)) := fun child hchild _ =>
          absorbs_caches.look rests_clock fun _ =>
            (caches_attachPendingContact hchild).bind Caches.trans fun _ =>
              absorbs_caches.query <| rests_enqueue.bind Rests.trans fun _ => rests_ret _
        exact (hrest _ hu.1 _ _).mono fun _ v h => hv.2.caches.trans _ _ _ h

theorem createPlusOne_caches {input : CreatePlusOneInput} :
    (createPlusOne cfg ctx input user locale).Guarantees Rests (fun _ _ => True)
      (fun _ t => Caches (s.db.invitations.next ≤ ·) s t) s := by
  unfold createPlusOne
  simp only [liftM_eq]
  cases createPlusOneIds input with
  | error e => exact Caches.refl s
  | ok ids =>
    cases validateNames input.firstName input.lastName input.plusOneAgeCategory
        input.phoneNumbers with
    | error e => exact Caches.refl s
    | ok _ =>
      rw [Prog.ok_bind, Prog.ok_bind]
      refine Prog.Guarantees.bind <| Prog.Guarantees.weaken (Q := fun _ t =>
        Caches (s.db.invitations.next ≤ ·) s t) (guarantees_transaction fun t ht => ?_) ?_
      · refine post_createPlusOneTransaction.mono fun r u hu => ?_
        rw [ht.invitations] at hu
        have hu := ht.sheds.caches.trans _ _ _ hu
        cases r with
        | ok a => exact ⟨⟨trivial, hu⟩, trivial, hu.rollback⟩
        | error e => exact ⟨trivial, hu.rollback⟩
      · intro r t ht
        cases r with
        | error e => exact ht
        | ok result =>
          refine absorbs_caches.after (absorbs_caches.seq (absorbs_caches.rest rests_send) fun _ =>
            .ite ?_ (absorbs_caches.ret _)) ht
          exact drifts_of_sheds (AdminWrite.approve_sheds rfl rfl)

theorem sheds_publicRsvpTransaction {input : PublicRsvpInput} {settings : Option EventSettings}
    {l : List String} {note : Option String} :
    (publicRsvpTransaction cfg ctx input settings l note).Moves Sheds := by
  refine absorbs_caches.look rests_clock fun _ => ?_
  refine sheds_createInvitation.bind Caches.trans fun invitee => ?_
  refine (Prog.Moves.mapM' Caches.refl Caches.trans fun _ => ?_).bind Caches.trans fun rows =>
    absorbs_caches.query <| rests_enqueue.bind Rests.trans fun _ => rests_enqueue.bind Rests.trans
      fun _ => rests_enqueue.bind Rests.trans fun _ => rests_ret _
  refine absorbs_caches.look rests_clock fun _ => ?_
  refine sheds_createInvitation.bind Caches.trans fun created => absorbs_caches.query ?_
  exact rests_enqueue.bind Rests.trans fun _ => rests_enqueue.bind Rests.trans fun _ => rests_ret _

theorem publicRsvpTransaction_guarantees {input : PublicRsvpInput} {settings : Option EventSettings}
    {l : List String} {note : Option String} (hu : Rests s u)
    (hnames : input.plusOnes.filter (fun p => p.firstName ≠ "" && p.lastName ≠ "") =
      input.plusOnes) :
    (Query.transaction (publicRsvpTransaction cfg ctx input settings l note)).Guarantees Rests
      (fun _ _ => True) (fun
        | .ok x, t => Sheds s t ∧ s.db.invitations.next ≤ x.1.id
        | .error _, t => Sheds s t) u :=
  guarantees_transaction fun t ht => by
    have hst := hu.trans _ _ _ ht
    have hends : (publicRsvpTransaction cfg ctx input settings l note).Ends
        (fun x _ => x.1.id = t.db.invitations.next) t :=
      ends_publicRsvpTransaction hnames fun _ _ _ _ _ _ _ => rfl
    refine ((sheds_publicRsvpTransaction t).and hends).mono fun r v h => ?_
    have hsheds := hst.sheds.trans _ _ _ h.1
    cases r with
    | ok x => exact ⟨⟨trivial, hsheds, (hst.invitations ▸ h.2 : x.1.id = _).ge⟩, trivial, hsheds⟩
    | error e => exact ⟨trivial, hsheds⟩

theorem createFromPublicRsvp_caches {input : PublicRsvpInput} :
    (createFromPublicRsvp cfg ctx input locale).Guarantees Rests (fun _ _ => True)
      (fun _ t => Caches (s.db.invitations.next ≤ ·) s t) s := by
  unfold createFromPublicRsvp
  simp only [liftM_eq]
  refine .ite (fun _ => Caches.refl s) fun _ => ?_
  cases hv : input.plusOnes.forM validatePlusOne with
  | error e => exact Caches.refl s
  | ok _ =>
    rw [Prog.ok_bind]
    refine guarantees_perform_bind Rests.trans (fun _ _ h => h) rests_findSettings (.refl s)
      (fun _ u h => h.sheds.caches) fun t ht => (Prog.ends_true _).mono fun settings u _ hu => ?_
    refine Prog.Guarantees.bind <| (publicRsvpTransaction_guarantees hu
      (validatePlusOnes_ok hv)).weaken fun r t ht => ?_
    cases r with
    | error e => exact ht.caches
    | ok x =>
      obtain ⟨invitee, rows⟩ := x
      refine absorbs_caches.after (absorbs_caches.seq (absorbs_caches.rest rests_clock) fun now =>
        absorbs_caches.seq (absorbs_caches.perform (caches_cacheSet ht.2)) fun token =>
          absorbs_caches.seq (absorbs_caches.perform (caches_of_sheds sheds_updateInvitation))
            fun updated => ?_) ht.1.caches
      refine absorbs_caches.seq (absorbs_caches.rest rests_send) fun _ => ?_
      refine absorbs_caches.seq (absorbs_caches.forM fun _ _ => absorbs_caches.rest rests_send)
        fun _ => .ite ?_ (absorbs_caches.ret _)
      exact drifts_of_sheds (AdminWrite.approve_sheds rfl rfl)

end GuestWrite

end InvitationService

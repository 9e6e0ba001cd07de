import InvitationService.Lib.Solo
import InvitationService.Lifecycle.Guest

namespace InvitationService

open Resumption Query

variable {cfg : Config} {ctx : Context} {w : World} {i : Nat} {r : Invitation}

namespace Query

@[simp] theorem solo_findInvitation : (findInvitation i).solo false w = (.ok (w.row i), w) :=
  Block.solo_call

@[simp] theorem solo_findManyInvitations {q : Invitation → Bool} :
    (findManyInvitations q).solo false w = (.ok (w.db.invitations.select q), w) := Block.solo_call

@[simp] theorem solo_deleteManyInvitations {q : Invitation → Bool} :
    (deleteManyInvitations q).solo false w =
      (.ok (), w.setInvitations (w.db.invitations.remove fun i => (w.row i).any q)) :=
  Block.solo_call

@[simp] theorem solo_findSettings {e : EventId} :
    (findSettings e).solo false w = (.ok (w.db.settings e), w) := Block.solo_call

@[simp] theorem solo_findAccess {e : EventId} {u : UserId} :
    (findAccess e u).solo false w = (.ok (w.db.access e u), w) := Block.solo_call

@[simp] theorem solo_findRole {e : EventId} {u : UserId} :
    (findRole e u).solo false w = (.ok (w.db.roles e u), w) := Block.solo_call

@[simp] theorem solo_clock : clock.solo false w = (.ok w.now, w) := rfl

@[simp] theorem solo_note {x : Effect} : (note x).solo false w = (.ok (), w.log x) := rfl

@[simp] theorem solo_cacheSet {p : PendingUser} :
    (cacheSet p).solo false w = (.ok w.nextToken, w.cachePending p) := Block.solo_call

@[simp] theorem solo_cacheDelete {token : Nat} :
    (cacheDelete token).solo false w = (.ok (), w.dropPending token) := Block.solo_call

@[simp] theorem solo_send {m : Message} {a : Option UserId} : (send cfg ctx m a).solo false w =
    (.ok (), w.log (.produced m a (currentTenantId cfg ctx))) := Block.solo_call

theorem solo_update {d : InvitationUpdate} (hr : w.row i = some r) :
    (updateInvitation i d).solo false w =
      if d.fits r then (.ok (d.apply w.now r), w.setInvitations (w.db.invitations.patch i d w.now))
      else (.error .valueOutOfRange, w) := by
  rw [updateInvitation, Block.solo_call, hr]

theorem solo_updateInvitation {d : InvitationUpdate} (hr : w.row i = some r)
    (hd : d.maxInvitees = none) : (updateInvitation i d).solo false w =
      (.ok (d.apply w.now r), w.setInvitations (w.db.invitations.patch i d w.now)) := by
  rw [solo_update hr, if_pos (d.fits_of_none r hd)]

theorem solo_deleteInvitation (hr : w.row i = some r) : (deleteInvitation i).solo false w =
    (.ok r, w.setInvitations (w.db.invitations.remove (· == i))) := by
  rw [deleteInvitation, Block.solo_call, hr]

theorem solo_createInvitation (h : w.db.invitations.ParentExists r.invitedByInvitationId) :
    (createInvitation r).solo false w =
      (.ok ((r.stamped w.now).withId w.db.invitations.next),
        w.setInvitations (w.db.invitations.insert (r.stamped w.now) h)) := by
  rw [createInvitation, Block.solo_call, dif_pos h]

theorem solo_enqueue {topic : String} {fact : AnalyticsFact} {tenantId : TenantId}
    (ht : ctx.tenantId = some tenantId) : (enqueue ctx topic fact).solo false w =
      (.ok (), w.addFacts [⟨tenantId, topic, ctx.actorId, w.now, fact⟩]) := by
  simp only [enqueue, ht]
  exact Block.solo_call

theorem solo_ensureExists (hr : w.row i = some r) :
    (ensureExists i).solo false w = (.ok r, w) := by
  rw [ensureExists, Prog.solo_bind_ok solo_findInvitation, hr]
  rfl

theorem solo_ensureExists_none (hr : w.row i = none) :
    (ensureExists i).solo false w = (.error (.invitationNotFound i), w) := by
  rw [ensureExists, Prog.solo_bind_ok solo_findInvitation, hr]
  rfl

theorem solo_assertMatchesActiveEvent {e : EventId} :
    (AdminWrite.assertMatchesActiveEvent e (some e)).solo false w = (.ok (), w) := by
  simp [AdminWrite.assertMatchesActiveEvent]

end Query

namespace GuestWrite

theorem solo_getPermissionsForUser {u : UserId} {e : EventId} :
    (getPermissionsForUser cfg u e).solo false w = (.ok (permissionsOf cfg w.db u e), w) := by
  rw [getPermissionsForUser, Prog.solo_bind_ok solo_findAccess]
  simp only [permissionsOf]
  cases w.db.access e u with
  | some x => rfl
  | none =>
    rw [Prog.solo_bind_ok solo_findRole]
    rfl

theorem solo_ensureUserCanManage {p : Nat} {u : UserId} {b : Bool} (hr : w.row p = some r)
    (hb : authority cfg w.db u r = some b) :
    (ensureUserCanManageParentInvitation cfg p (some u)).solo false w = (.ok b, w) := by
  rw [ensureUserCanManageParentInvitation, Prog.solo_bind_ok (solo_ensureExists hr)]
  unfold authority at hb
  split at hb
  · cases hb
    rw [if_pos ‹_›]
    rfl
  · rw [if_neg ‹_›, Prog.solo_bind_ok solo_getPermissionsForUser]
    split at hb
    · cases hb
      rw [if_pos ‹_›]
      rfl
    · cases hb

end GuestWrite
end InvitationService

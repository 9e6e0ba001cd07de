import InvitationService.Lifecycle.Handlers
import InvitationService.Lifecycle.Interleaving

namespace InvitationService

open Resumption Query

/-! The calls that write projections write nothing else. -/

def Call.WritesSettings (c : Call) (e : EventId) : Prop :=
  match c with
  | .eventCreated payload _ => payload.eventId = e
  | .eventUpdated payload _ => payload.eventId = e
  | .eventDeleted es => e ∈ es
  | _ => False

/-- Nothing changes but the projections that are the call's to write. -/
structure Alters (c : Call) (w v : World) : Prop where
  rest : v = { w with db := { w.db with
    settings := v.db.settings
    roles := v.db.roles
    access := v.db.access } }
  settings : ∀ e, c.WritesSettings e ∨ v.db.settings e = w.db.settings e
  roles : ∀ e u, c.WritesRole e u ∨ v.db.roles e u = w.db.roles e u
  access : ∀ e u, c.WritesAccess e u ∨ v.db.access e u = w.db.access e u

theorem Alters.refl {c : Call} (w : World) : Alters c w w :=
  ⟨rfl, fun _ => .inr rfl, fun _ _ => .inr rfl, fun _ _ => .inr rfl⟩

theorem Alters.onward {c : Call} {w v : World} (h : Alters c w v) : Onward w v := by
  rw [h.rest]
  exact ⟨Nat.le_refl _, Nat.le_refl _, fun _ r hr _ => ⟨r, hr, rfl⟩, Nat.le_refl _,
    fun _ _ => .inl rfl, [], rfl⟩

abbrev Projecting (R : World → World → Prop) (c : Call) (p : Program α) (s : World) : Prop :=
  p.Within R (Alters c) (fun _ _ => True) s

variable {R : World → World → Prop} {cfg : Config} {c : Call} {s : World} {e : EventId} {u : UserId}

theorem projecting_look {b : Query α} (hb : b.Looks) : Projecting R c (perform b) s :=
  within_perform_of_moves hb (fun t v hv => by rw [hv]; exact .refl t) fun _ _ =>
    (Prog.ends_true b).mono fun _ _ _ _ => trivial

theorem projecting_call {ε : Exception} {f : World → Except Exception α × World}
    (hf : ∀ w, Alters c w (f w).2) : (perform (Block.call ε f)).Guarantees R (Alters c)
      (fun _ _ => True) s :=
  guarantees_perform fun t _ => Block.post_call.2 ⟨⟨.refl t, trivial⟩, hf t, trivial⟩

theorem Projecting.of_guarantees {p : Program α}
    (h : p.Guarantees R (Alters c) (fun _ _ => True) s) : Projecting R c p s :=
  h.weaken fun r _ _ => by cases r <;> trivial

theorem Projecting.seq {p : Program α} {g : α → Program β} (hp : Projecting R c p s)
    (hg : ∀ x t, Projecting R c (g x) t) : Projecting R c (p >>= g) s :=
  Prog.Within.bind <| Prog.Within.weaken hp fun x t _ => hg x t

theorem Projecting.ite {P : Prop} [Decidable P] {p q : Program α} (hp : Projecting R c p s)
    (hq : Projecting R c q s) : Projecting R c (if P then p else q) s := by
  split
  · exact hp
  · exact hq

theorem Alters.settings_update {w : World} {x : Option EventSettings} (h : c.WritesSettings e) :
    Alters c w { w with db := { w.db with settings := Function.update w.db.settings e x } } where
  rest := rfl
  settings e' := by
    by_cases he : e' = e
    · exact .inl (he ▸ h)
    · exact .inr (Function.update_of_ne he _ _)
  roles _ _ := .inr rfl
  access _ _ := .inr rfl

theorem Alters.roles_put {w : World} {x : Option EventRole} (h : c.WritesRole e u) :
    Alters c w { w with db := { w.db with roles := putEntry w.db.roles e u x } } where
  rest := rfl
  settings _ := .inr rfl
  roles e' u' := by
    by_cases he : e = e' ∧ u = u'
    · obtain ⟨rfl, rfl⟩ := he
      exact .inl h
    · exact .inr (putEntry_of_ne he)
  access _ _ := .inr rfl

theorem Alters.access_put {w : World} {x : Option EventAccess} (h : c.WritesAccess e u) :
    Alters c w { w with db := { w.db with access := putEntry w.db.access e u x } } where
  rest := rfl
  settings _ := .inr rfl
  roles _ _ := .inr rfl
  access e' u' := by
    by_cases he : e = e' ∧ u = u'
    · obtain ⟨rfl, rfl⟩ := he
      exact .inl h
    · exact .inr (putEntry_of_ne he)

theorem upsertSettings_projecting {create update : EventSettingsData} (h : c.WritesSettings e) :
    Projecting R c (perform (upsertSettings e create update)) s :=
  .of_guarantees (projecting_call fun w => by
    dsimp only
    split
    · exact .settings_update h
    · exact .refl w)

theorem upsertRole_projecting {role : EventRoleType} (h : c.WritesRole e u) :
    Projecting R c (perform (upsertRole e u role)) s :=
  .of_guarantees (projecting_call fun _ => .roles_put h)

theorem deleteRole_projecting (h : c.WritesRole e u) :
    Projecting R c (perform (deleteRole e u)) s :=
  .of_guarantees (projecting_call fun _ => .roles_put h)

theorem handleOwnerChanged_projecting {payload : EventOwnerChangedDTO} :
    Projecting R (.ownerChanged payload) (EventRoleHandler.handleOwnerChanged payload) s := by
  have hnew : ∀ t, Projecting R (.ownerChanged payload) (do
      let existingNew ← perform (findRole payload.eventId payload.newOwnerId)
      if EventRoleHandler.isStale payload.occurredAt (existingNew.bind (·.updatedAt)) then pure ()
      else perform (upsertRole payload.eventId payload.newOwnerId .admin)) t := fun t =>
    (projecting_look looks_findRole).seq fun _ _ =>
      .ite trivial (upsertRole_projecting (by exact ⟨rfl, .inr rfl⟩))
  unfold EventRoleHandler.handleOwnerChanged
  simp only [liftM_eq]
  cases hold : payload.oldOwnerId with
  | none => exact hnew s
  | some old =>
    refine (projecting_look looks_findRole).seq fun existing t => ?_
    exact .ite ((deleteRole_projecting (by exact ⟨rfl, .inl hold⟩)).seq fun _ => hnew) (hnew t)

theorem handleEventDeleted_projecting {es : List EventId} :
    Projecting R (.eventDeleted es) (EventRoleHandler.handleEventDeleted es) s := by
  have hstep : ∀ {f : World → Except Exception Unit × World} {t : World},
      (∀ w, Alters (.eventDeleted es) w (f w).2) → Projecting R (.eventDeleted es)
        (perform (Block.call (.dependency .database) f)).attempt t := fun hf =>
    Prog.Guarantees.attempt (projecting_call hf)
  unfold EventRoleHandler.handleEventDeleted
  simp only [liftM_eq]
  refine Projecting.seq (hstep fun w => ⟨rfl, fun _ => .inr rfl, gone_eq w.db.roles,
    fun _ _ => .inr rfl⟩) fun roles _ => ?_
  refine Projecting.seq (hstep fun w => ⟨rfl, fun e => (em (e ∈ es)).imp id fun h => if_neg h,
    fun _ _ => .inr rfl, fun _ _ => .inr rfl⟩) fun settings _ => ?_
  refine Projecting.seq (hstep fun w => ⟨rfl, fun _ => .inr rfl, fun _ _ => .inr rfl,
    gone_eq w.db.access⟩) fun access _ => ?_
  cases roles <;> cases settings <;> cases access <;> trivial

theorem execute_projecting {q : Request} (hq : q.call.Projects) :
    Projecting R q.call (execute cfg q) s := by
  obtain ⟨c, ctx⟩ := q
  cases c with
  | userAccessChanged payload =>
    exact (projecting_look looks_findAccess).seq fun _ _ => .ite trivial
      (.of_guarantees (projecting_call fun _ => .access_put (by exact ⟨rfl, rfl⟩)))
  | roleAssigned payload =>
    exact (projecting_look looks_findRole).seq fun _ _ =>
      .ite trivial (upsertRole_projecting (by exact ⟨rfl, rfl⟩))
  | roleRemoved payload =>
    exact (projecting_look looks_findRole).seq fun _ _ =>
      .ite trivial (deleteRole_projecting (by exact ⟨rfl, rfl⟩))
  | ownerChanged payload => exact handleOwnerChanged_projecting
  | eventDeleted es => exact handleEventDeleted_projecting
  | eventCreated payload tenant =>
    cases tenant with
    | none => trivial
    | some t => exact upsertSettings_projecting rfl
  | eventUpdated payload tenant =>
    cases tenant with
    | none => trivial
    | some t =>
      exact (projecting_look (Block.looks_call fun _ => rfl)).seq fun _ _ =>
        .ite trivial (upsertSettings_projecting rfl)
  | _ => exact absurd hq id

end InvitationService

import InvitationService.Lifecycle.Runs

namespace InvitationService

open Resumption Query InvitationTable

/-! What the steps of a call leave of a row, whatever happens between them. -/

variable {cfg : Config} {c : Call} {a s t u : World} {A : World → World → Prop}
  {i : Nat} {α γ : Type}

def Grows (s t : World) : Prop := s.db.invitations.next ≤ t.db.invitations.next

theorem stable_grows : Stable Grows cfg c a where
  trans := Nat.le_trans
  next_le h := h
  absorb h _ hk := h.trans hk.next.ge

theorem within_hushed {b : Query α} (hA : ∀ t u, u.db = t.db → A t u) (hb : b.Moves Hush) :
    (perform b).Within Grows A (fun _ _ => True) s :=
  within_quiet hA hb fun _ _ => (Prog.ends_true _).mono fun _ _ _ _ => trivial

def fieldOf (f : Invitation → γ) (i : Nat) (w : World) : Option γ := (w.row i).map f

variable {f : Invitation → γ}

theorem fieldOf_of_db (h : u.db = t.db) : fieldOf f i u = fieldOf f i t := by
  rw [fieldOf, fieldOf, World.row, World.row, h]

theorem fieldOf_of_patch {d : InvitationUpdate} {j now : Nat} (hij : i ≠ j)
    (hu : u.db.invitations = t.db.invitations.patch j d now) : fieldOf f i u = fieldOf f i t := by
  rw [fieldOf, fieldOf, World.row, World.row, hu, patch_row_of_ne hij]

theorem fieldOf_patch_self {d : InvitationUpdate} {now : Nat} {r : Invitation}
    (hr : t.row i = some r) (hu : u.db.invitations = t.db.invitations.patch i d now) :
    fieldOf f i u = some (f (d.apply now r)) := by
  rw [fieldOf, World.row, hu, patch_row_self, show t.db.invitations.row i = some r from hr]
  rfl

theorem fieldOf_patch {d : InvitationUpdate} {j now : Nat} (hd : ∀ r n, f (d.apply n r) = f r)
    (hu : u.db.invitations = t.db.invitations.patch j d now) : fieldOf f i u = fieldOf f i t := by
  by_cases hj : i = j
  · subst hj
    rw [fieldOf, fieldOf, World.row, World.row, hu, patch_row_self, Option.map_map]
    exact congrArg (Option.map · _) (funext fun r => hd r _)
  · exact fieldOf_of_patch hj hu

end InvitationService

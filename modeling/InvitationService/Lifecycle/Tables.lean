import InvitationService.Model.AdminWrite

namespace InvitationService

theorem nodup_eraseDups (l : List Nat) : l.eraseDups.Nodup := by
  cases l with
  | nil => exact List.nodup_nil
  | cons a l =>
    rw [List.eraseDups_cons, List.nodup_cons]
    exact ⟨by simp [List.mem_eraseDups], nodup_eraseDups _⟩
termination_by l.length
decreasing_by simpa using Nat.lt_succ_of_le (List.length_filter_le ..)

inductive InsertAll : InvitationTable → List Invitation → InvitationTable → Prop
  | nil {t : InvitationTable} : InsertAll t [] t
  | cons {t u : InvitationTable} {r : Invitation} {rs : List Invitation}
      (h : t.ParentExists r.invitedByInvitationId) :
      InsertAll (t.insert r h) rs u → InsertAll t (r :: rs) u

inductive RemoveAll : InvitationTable → List Nat → InvitationTable → Prop
  | nil {t : InvitationTable} : RemoveAll t [] t
  | cons {t u : InvitationTable} {i : Nat} {is : List Nat} :
      (t.row i).isSome → RemoveAll (t.remove (· == i)) is u → RemoveAll t (i :: is) u

inductive StageAll (staged : Bool) (now : Nat) :
    InvitationTable → List Invitation → InvitationTable → Prop
  | nil {t : InvitationTable} : StageAll staged now t [] t
  | cons {t u : InvitationTable} {r : Invitation} {rs : List Invitation} :
      StageAll staged now
        (t.patch r.id { status := some (AdminWrite.stagedStatus staged r) } now) rs u →
      StageAll staged now t (r :: rs) u

namespace InvitationTable

variable {t u : InvitationTable} {r : Invitation} {i p : Nat}

@[simp] theorem insert_row_next (h) : (t.insert r h).row t.next = some (r.withId t.next) := by
  simp [insert_row]

theorem insert_row_of_ne (h) (hi : i ≠ t.next) : (t.insert r h).row i = t.row i := by
  simp [insert_row, hi]

theorem insert_row_of_lt (h) (hi : i < t.next) : (t.insert r h).row i = t.row i :=
  insert_row_of_ne h (Nat.ne_of_lt hi)

theorem parent_insert_next (h) : (t.insert r h).parent t.next = r.invitedByInvitationId := by
  rw [parent, insert_row_next]
  rfl

theorem parent_insert_of_lt (h) (hi : i < t.next) : (t.insert r h).parent i = t.parent i := by
  rw [parent, parent, insert_row_of_lt h hi]

@[simp] theorem parent_patch {j now : Nat} {d : InvitationUpdate} :
    (t.patch j d now).parent i = t.parent i := by
  rw [parent, parent, patch_row]
  split
  · cases t.row i <;> rfl
  · rfl

theorem next_notMem_children : t.next ∉ t.children p := fun hm => by
  obtain ⟨x, hx, -⟩ := mem_children.1 hm
  exact absurd (t.id_lt hx) (Nat.lt_irrefl _)

theorem children_insert (h) (hp : r.invitedByInvitationId = some p) :
    (t.insert r h).children p = Insert.insert t.next (t.children p) := by
  ext i
  rw [Finset.mem_insert, mem_children, mem_children]
  by_cases hi : i = t.next
  · subst hi
    simp [hp]
  · simp [insert_row, hi]

theorem card_children_insert (h) (hp : r.invitedByInvitationId = some p) :
    ((t.insert r h).children p).card = (t.children p).card + 1 := by
  rw [children_insert h hp, Finset.card_insert_of_notMem next_notMem_children]

theorem children_insert_of_ne (h) (hp : r.invitedByInvitationId ≠ some p) :
    (t.insert r h).children p = t.children p := by
  ext i
  rw [mem_children, mem_children]
  by_cases hi : i = t.next
  · subst hi
    simp [hp, row_next]
  · simp [insert_row, hi]

@[simp] theorem children_patch {d : InvitationUpdate} {now : Nat} :
    (t.patch i d now).children p = t.children p := by
  ext j
  rw [mem_children, mem_children]
  by_cases hj : j = i
  · subst hj
    simp
  · simp [patch_row, hj]

theorem remove_row_of_none {roots : Nat → Bool} (h : t.row i = none) :
    (t.remove roots).row i = none := by
  simp [remove_row, h]

theorem children_of_row_none (h : t.row p = none) : t.children p = ∅ := by
  refine Finset.eq_empty_of_forall_notMem fun i hi => ?_
  obtain ⟨r, hr, hp⟩ := mem_children.1 hi
  have := t.parent_row hr hp
  rw [h] at this
  cases this

theorem children_remove (h : ((t.remove (· == i)).row p).isSome) :
    (t.remove (· == i)).children p = (t.children p).erase i := by
  have hp : t.under (· == i) p = false := by
    by_contra hu
    simp only [Bool.not_eq_false] at hu
    rw [remove_row, if_pos hu] at h
    cases h
  ext j
  rw [Finset.mem_erase, mem_children, mem_children]
  constructor
  · rintro ⟨r, hr, hrp⟩
    rw [remove_row] at hr
    split at hr
    · cases hr
    · rename_i hu
      refine ⟨fun hj => hu (under_of_root (by simpa using hj)), r, hr, hrp⟩
  · rintro ⟨hj, r, hr, hrp⟩
    have hu : t.under (· == i) j = false := by
      rw [under_eq, parent_eq_some.2 ⟨r, hr, hrp⟩]
      change ((j == i) || t.under (· == i) p) = false
      rw [hp, beq_false_of_ne hj]
      rfl
    exact ⟨r, by rw [remove_row, hu]; exact hr, hrp⟩

theorem le_of_under (h : t.under (· == i) p = true) : i ≤ p := by
  induction p using Nat.strong_induction_on with
  | _ p ih =>
    rw [under_eq, Bool.or_eq_true, beq_iff_eq] at h
    rcases h with rfl | h
    · exact Nat.le_refl _
    · cases hq : t.parent p with
      | none =>
        rw [hq] at h
        cases h
      | some q =>
        rw [hq] at h
        obtain ⟨r, hr, hp⟩ := parent_eq_some.1 hq
        have hlt := t.parent_lt hr hp
        exact Nat.le_trans (ih q hlt h) (Nat.le_of_lt hlt)

theorem row_remove_of_lt (h : p < i) : (t.remove (· == i)).row p = t.row p := by
  rw [remove_row, if_neg fun hu => Nat.not_lt.2 (le_of_under hu) h]

theorem remove_row_eq {roots : Nat → Bool} :
    (t.remove roots).row i = none ∨ (t.remove roots).row i = t.row i := by
  by_cases h : t.under roots i = true
  · exact .inl (by simp [remove_row, h])
  · exact .inr (by simp [remove_row, h])

theorem row_of_remove {roots : Nat → Bool} {r : Invitation}
    (h : (t.remove roots).row i = some r) : t.row i = some r := by
  rcases remove_row_eq with hi | hi
  · rw [hi] at h; cases h
  · rwa [← hi]

end InvitationTable

open InvitationTable

namespace InsertAll

variable {t u : InvitationTable} {rs : List Invitation} {i p : Nat}

theorem next_eq (h : InsertAll t rs u) : u.next = t.next + rs.length := by
  induction h with
  | nil => rfl
  | cons h _ ih => rw [ih, insert_next, List.length_cons]; omega

theorem next_le (h : InsertAll t rs u) : t.next ≤ u.next := by
  rw [h.next_eq]
  exact Nat.le_add_right _ _

theorem row_of_lt (h : InsertAll t rs u) (hi : i < t.next) : u.row i = t.row i := by
  induction h with
  | nil => rfl
  | cons hp _ ih => rw [ih (Nat.lt_succ_of_lt hi), insert_row_of_lt hp hi]

theorem parent_of_lt (h : InsertAll t rs u) (hi : i < t.next) : u.parent i = t.parent i := by
  rw [parent, parent, h.row_of_lt hi]

theorem card_children (h : InsertAll t rs u)
    (hp : ∀ r ∈ rs, r.invitedByInvitationId = some p) :
    (u.children p).card = (t.children p).card + rs.length := by
  induction h with
  | nil => rfl
  | cons hx _ ih =>
    rw [ih fun r hr => hp r (List.mem_cons_of_mem _ hr), card_children_insert hx (hp _ (by simp)),
      List.length_cons]
    omega

theorem children_of_ne (h : InsertAll t rs u)
    (hp : ∀ r ∈ rs, r.invitedByInvitationId ≠ some p) : u.children p = t.children p := by
  induction h with
  | nil => rfl
  | cons hx _ ih =>
    rw [ih fun r hr => hp r (List.mem_cons_of_mem _ hr),
      children_insert_of_ne hx (hp _ (by simp))]

end InsertAll

namespace RemoveAll

variable {t u : InvitationTable} {is : List Nat} {i : Nat}

theorem next_eq (h : RemoveAll t is u) : u.next = t.next := by
  induction h with
  | nil => rfl
  | cons _ _ ih => exact ih

theorem row_eq (h : RemoveAll t is u) : u.row i = none ∨ u.row i = t.row i := by
  induction h with
  | nil => exact .inr rfl
  | @cons t u j is _ _ ih =>
    rcases ih with h | h
    · exact .inl h
    · rw [h]
      exact remove_row_eq

theorem row_of_isSome (h : RemoveAll t is u) (hi : (u.row i).isSome) : u.row i = t.row i := by
  rcases h.row_eq (i := i) with h | h
  · rw [h] at hi
    cases hi
  · exact h

theorem card_children {p : Nat} (h : RemoveAll t is u) (hp : (u.row p).isSome)
    (his : ∀ i ∈ is, ∀ r, t.row i = some r → r.invitedByInvitationId = some p) :
    (u.children p).card + is.length = (t.children p).card := by
  induction h with
  | nil => rfl
  | @cons t u i is hi hrest ih =>
    obtain ⟨r, hr⟩ := Option.isSome_iff_exists.1 hi
    have hrow := hrest.row_of_isSome hp
    have hmem : i ∈ t.children p := mem_children.2 ⟨r, hr, his i (by simp) r hr⟩
    have := ih hp fun j hj x hx => his j (List.mem_cons_of_mem _ hj) x (row_of_remove hx)
    rw [children_remove (hrow ▸ hp), Finset.card_erase_of_mem hmem] at this
    have hpos := Finset.card_pos.2 ⟨i, hmem⟩
    rw [List.length_cons]
    omega

theorem children_of_ne {p : Nat} (h : RemoveAll t is u) (hp : (u.row p).isSome)
    (his : ∀ i ∈ is, ∀ r, t.row i = some r → r.invitedByInvitationId ≠ some p) :
    u.children p = t.children p := by
  induction h with
  | nil => rfl
  | @cons t u i is hi hrest ih =>
    have hrow := hrest.row_of_isSome hp
    rw [ih hp fun j hj x hx => ?_, children_remove (hrow ▸ hp), Finset.erase_eq_of_notMem]
    · intro hmem
      obtain ⟨r, hr, hrp⟩ := mem_children.1 hmem
      exact his i (by simp) r hr hrp
    · exact his j (List.mem_cons_of_mem _ hj) x (row_of_remove hx)

end RemoveAll

namespace StageAll

variable {staged : Bool} {now : Nat} {t u : InvitationTable} {rs : List Invitation} {i : Nat}

theorem next_eq (h : StageAll staged now t rs u) : u.next = t.next := by
  induction h with
  | nil => rfl
  | cons _ ih => exact ih

theorem row_of_notMem (h : StageAll staged now t rs u) (hi : i ∉ rs.map (·.id)) :
    u.row i = t.row i := by
  induction h with
  | nil => rfl
  | cons _ ih =>
    simp only [List.map_cons, List.mem_cons, not_or] at hi
    rw [ih hi.2, patch_row_of_ne hi.1]

theorem row_of_mem (h : StageAll staged now t rs u) (hn : (rs.map (·.id)).Nodup)
    {r : Invitation} (hr : r ∈ rs) : u.row r.id = (t.row r.id).map
      (InvitationUpdate.apply { status := some (AdminWrite.stagedStatus staged r) } now) := by
  induction h with
  | nil => cases hr
  | @cons t u x rs hu ih =>
    simp only [List.map_cons, List.nodup_cons] at hn
    rcases List.mem_cons.1 hr with rfl | hr
    · rw [hu.row_of_notMem hn.1, patch_row_self]
    · have hne : r.id ≠ x.id := fun he => hn.1 (he ▸ List.mem_map_of_mem hr)
      rw [ih hn.2 hr, patch_row_of_ne hne]

end StageAll
end InvitationService

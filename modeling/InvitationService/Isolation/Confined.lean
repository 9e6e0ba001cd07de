import InvitationService.Lifecycle.Interleaving
import InvitationService.Lifecycle.Removal

namespace InvitationService

open Resumption Query

/-! What a call is about, and that its steps touch nothing else. -/

/-- The invitations that a call is about, by id and event. -/
abbrev Scope := Nat → EventId → Prop

namespace InvitationTable

variable {E : Scope} {t u v : InvitationTable} {i : Nat}

inductive Below (E : Scope) (t : InvitationTable) : Nat → Prop
  | root {i : Nat} {r : Invitation} : t.row i = some r → E i r.eventId → Below E t i
  | plusOne {i p : Nat} : t.parent i = some p → Below E t p → Below E t i

/-- From `t` to `u` no row outside `E` is changed, added or removed, unless it is a plus-one that
goes with a row of `E`. -/
structure Spares (E : Scope) (t u : InvitationTable) : Prop where
  next : t.next ≤ u.next
  row : ∀ i r, u.row i = some r → t.row i = some r ∨ E i r.eventId ∧ (t.next ≤ i ∨
    ∃ x, t.row i = some x ∧ r.eventId = x.eventId ∧
      r.invitedByInvitationId = x.invitedByInvitationId)
  gone : ∀ i, (t.row i).isSome → u.row i = none → t.Below E i

namespace Spares

theorem refl (t : InvitationTable) : t.Spares E t :=
  ⟨Nat.le_refl _, fun _ _ hr => .inl hr, fun i hi hn => by simp [hn] at hi⟩

theorem row_of_lt (h : t.Spares E u) {r : Invitation} (hr : u.row i = some r) (hi : i < t.next) :
    ∃ x, t.row i = some x ∧ r.eventId = x.eventId ∧
      r.invitedByInvitationId = x.invitedByInvitationId := by
  rcases h.row i r hr with h | ⟨-, hnew | hold⟩
  · exact ⟨r, h, rfl, rfl⟩
  · omega
  · exact hold

theorem parent_of_lt (h : t.Spares E u) {p : Nat} (hp : u.parent i = some p) (hi : i < t.next) :
    t.parent i = some p := by
  obtain ⟨r, hr, hrp⟩ := parent_eq_some.1 hp
  obtain ⟨x, hx, -, hpar⟩ := h.row_of_lt hr hi
  exact parent_eq_some.2 ⟨x, hx, hpar.symm.trans hrp⟩

theorem below (h : t.Spares E u) (hi : u.Below E i) (hlt : i < t.next) : t.Below E i := by
  induction hi with
  | root hr hE =>
    obtain ⟨x, hx, he, -⟩ := h.row_of_lt hr hlt
    exact .root hx (he ▸ hE)
  | plusOne hp _ ih =>
    have hpar := h.parent_of_lt hp hlt
    obtain ⟨r, hr, hrp⟩ := parent_eq_some.1 hpar
    exact .plusOne hpar (ih ((t.parent_lt hr hrp).trans hlt))

theorem trans (h : t.Spares E u) (k : u.Spares E v) : t.Spares E v where
  next := h.next.trans k.next
  row i r hr := by
    rcases k.row i r hr with hu | ⟨hE, hnew | ⟨x, hx, he, hp⟩⟩
    · exact h.row i r hu
    · exact .inr ⟨hE, .inl (h.next.trans hnew)⟩
    · rcases h.row i x hx with ht | ⟨-, hnew | ⟨y, hy, he', hp'⟩⟩
      · exact .inr ⟨hE, .inr ⟨x, ht, he, hp⟩⟩
      · exact .inr ⟨hE, .inl hnew⟩
      · exact .inr ⟨hE, .inr ⟨y, hy, he.trans he', hp.trans hp'⟩⟩
  gone i hi hn := by
    cases hu : u.row i with
    | none => exact h.gone i hi hu
    | some x =>
      obtain ⟨r, hr⟩ := Option.isSome_iff_exists.1 hi
      exact h.below (k.gone i (by simp [hu]) hn) (t.id_lt hr)

theorem patch {d : InvitationUpdate} {now : Nat} (hE : ∀ r, t.row i = some r → E i r.eventId) :
    t.Spares E (t.patch i d now) where
  next := Nat.le_refl _
  row j r hr := by
    by_cases hj : j = i
    · subst hj
      rw [patch_row_self] at hr
      obtain ⟨x, hx, rfl⟩ := Option.map_eq_some_iff.1 hr
      exact .inr ⟨hE x hx, .inr ⟨x, hx, rfl, rfl⟩⟩
    · exact .inl (by rwa [patch_row_of_ne hj] at hr)
  gone j hj hn := by
    rw [← isSome_patch_row t i d now, hn] at hj
    cases hj

theorem insert {r : Invitation} {hp : t.ParentExists r.invitedByInvitationId}
    (hE : E t.next r.eventId) : t.Spares E (t.insert r hp) where
  next := Nat.le_succ _
  row j s hs := by
    by_cases hj : j = t.next
    · subst hj
      rw [insert_row_next] at hs
      obtain rfl := Option.some.inj hs
      exact .inr ⟨hE, .inl (Nat.le_refl _)⟩
    · exact .inl (by rwa [insert_row_of_ne hp hj] at hs)
  gone j hj hn := by
    obtain ⟨s, hs⟩ := Option.isSome_iff_exists.1 hj
    rw [insert_row_of_lt hp (t.id_lt hs), hs] at hn
    cases hn

theorem remove {roots : Nat → Bool} (hE : ∀ j r, roots j = true → t.row j = some r →
    E j r.eventId) :
    t.Spares E (t.remove roots) where
  next := Nat.le_refl _
  row j r hr := .inl (by
    rw [remove_row] at hr
    split at hr
    · cases hr
    · exact hr)
  gone j hj hn := by
    have hunder : t.under roots j = true := by
      by_contra hu
      rw [remove_row, if_neg hu] at hn
      simp [hn] at hj
    refine under_induction (P := fun j => (t.row j).isSome → t.Below E j) hunder
      (fun j hroot hj => ?_) (fun j p hp ih hj => ?_) hj
    · obtain ⟨r, hr⟩ := Option.isSome_iff_exists.1 hj
      exact .root hr (hE j r hroot hr)
    · obtain ⟨r, hr, hrp⟩ := parent_eq_some.1 hp
      exact .plusOne hp (ih (t.parent_row hr hrp))

end Spares
end InvitationTable

def World.Has (E : Scope) (P : Invitation → Prop) (w : World) : Prop :=
  ∃ r, w.row r.id = some r ∧ E r.id r.eventId ∧ P r

/-- The effect tells of invitations that `F` knows, and of nothing else. -/
def Effect.About (F : (Invitation → Prop) → Prop) : Effect → Prop
  | .called _ => False
  | .produced (.confirmGuest i e _ _ _ _ _) _ _ => F fun r => r.id = i ∧ r.eventId = e
  | .produced (.seatReserve p) _ _ => F fun r => r.id = p.invitationId ∧ r.eventId = p.eventId
  | .produced (.milestoneRecorded e _ _ i) _ _ => F fun r => r.id = i ∧ r.eventId = e
  | .produced (.seatingInfoUpdated e i _ _) _ _ => F fun r => r.id = i ∧ r.eventId = e
  | .produced (.deleteGuest u) _ _ => F fun r => r.guestProfileId = some u
  | .produced (.deleteGuestList us) _ _ => ∀ u ∈ us, F fun r => r.guestProfileId = some u
  | .scheduled (.generateTicket i e _ _ _) _ => F fun r => r.id = i ∧ r.eventId = e
  | .scheduled (.remind i _ _) _ => F fun r => r.id = i
  | .granted e u _ => F fun r => r.eventId = e ∧ r.guestProfileId = some u
  | .approved i _ | .rejected i _ | .resent i | .reminded i _ | .signupMarker i _ =>
    F fun r => r.id = i

def Lock.invitationId : Lock → Nat
  | .ticketGenerate i => i
  | .guestConfirmation i => i

/-- From `w` to `v` nothing happens but to the invitations of `E`; `F` knows those that have been
read. -/
structure Confined (F : (Invitation → Prop) → Prop) (E : Scope) (w v : World) : Prop where
  now : v.now = w.now
  invitations : w.db.invitations.Spares E v.db.invitations
  settings : v.db.settings = w.db.settings
  roles : v.db.roles = w.db.roles
  access : v.db.access = w.db.access
  outbox : ∃ o, v.db.outbox = w.db.outbox ++ o ∧ ∀ x ∈ o,
    (F fun r => r.id = x.payload.aggregateId) ∨
      w.db.invitations.next ≤ x.payload.aggregateId ∧ ∃ e, E x.payload.aggregateId e
  nextToken : w.nextToken ≤ v.nextToken
  pendingContact : ∀ t < w.nextToken, v.pendingContact t = w.pendingContact t ∨
    v.pendingContact t = none ∧ F fun r => r.pendingContactId = some t
  resendCooldown : ∀ i, v.resendCooldown i = w.resendCooldown i ∨ F fun r => r.id = i
  locks : ∀ l, v.locks l = w.locks l ∨ ∃ e, E l.invitationId e
  journal : ∃ l, v.journal = l ++ w.journal ∧ ∀ x ∈ l, x.About F

namespace Confined

variable {F : (Invitation → Prop) → Prop} {E : Scope} {u v w : World}

theorem refl (w : World) : Confined F E w w :=
  ⟨rfl, .refl _, rfl, rfl, rfl, ⟨[], by simp, by simp⟩, Nat.le_refl _, fun _ _ => .inl rfl,
    fun _ => .inl rfl, fun _ => .inl rfl, [], rfl, by simp⟩

theorem table (h : Confined F E w v) {t : InvitationTable} (ht : v.db.invitations.Spares E t) :
    Confined F E w (v.setInvitations t) :=
  { h with invitations := h.invitations.trans ht }

theorem log (h : Confined F E w v) {x : Effect} (hx : x.About F) : Confined F E w (v.log x) :=
  { h with
    journal := by
      obtain ⟨l, hl, hF⟩ := h.journal
      exact ⟨x :: l, by rw [World.log_journal, hl]; rfl, List.forall_mem_cons.2 ⟨hx, hF⟩⟩ }

theorem addFact (h : Confined F E w v) {x : OutboxRow}
    (hx : (F fun r => r.id = x.payload.aggregateId) ∨
      w.db.invitations.next ≤ x.payload.aggregateId ∧ ∃ e, E x.payload.aggregateId e) :
    Confined F E w (v.addFacts [x]) :=
  { h with
    outbox := by
      obtain ⟨o, ho, hF⟩ := h.outbox
      refine ⟨o ++ [x], by rw [World.addFacts_outbox, ho, List.append_assoc], fun y hy => ?_⟩
      rcases List.mem_append.1 hy with hy | hy
      · exact hF y hy
      · rw [List.mem_singleton.1 hy]
        exact hx }

theorem cache (h : Confined F E w v) (payload : PendingUser) :
    Confined F E w (v.cachePending payload) :=
  { h with
    nextToken := h.nextToken.trans (Nat.le_succ _)
    pendingContact := fun t ht => by
      have hne : t ≠ v.nextToken := Nat.ne_of_lt (Nat.lt_of_lt_of_le ht h.nextToken)
      simpa [World.cachePending, hne] using h.pendingContact t ht }

theorem drop (h : Confined F E w v) {token : Nat}
    (hF : F fun r => r.pendingContactId = some token) :
    Confined F E w (v.dropPending token) :=
  { h with
    pendingContact := fun t ht => by
      by_cases he : t = token
      · subst he
        exact .inr ⟨by simp [World.dropPending], hF⟩
      · simpa [World.dropPending, he] using h.pendingContact t ht }

theorem cool (h : Confined F E w v) {i : Nat} {b : Bool} (hF : F fun r => r.id = i) :
    Confined F E w { v with resendCooldown := Function.update v.resendCooldown i b } :=
  { h with
    resendCooldown := fun j => by
      by_cases he : j = i
      · subst he
        exact .inr hF
      · simpa [he] using h.resendCooldown j }

theorem lock (h : Confined F E w v) {l : Lock} {e : EventId} {x : Option Nat} {n : Nat}
    (hE : E l.invitationId e) : Confined F E w { v with
      locks := Function.update v.locks l x
      nextLock := n } :=
  { h with
    locks := fun k => by
      by_cases he : k = l
      · subst he
        exact .inr ⟨e, hE⟩
      · simpa [he] using h.locks k }

theorem rollback (h : Confined F E w v) : Confined F E w (World.rollback w v) :=
  { h with
    invitations := .refl _
    settings := rfl
    roles := rfl
    access := rfl
    outbox := ⟨[], by simp [World.rollback], by simp⟩ }

theorem mono {F' : (Invitation → Prop) → Prop} (h : Confined F E w v) (hF : ∀ P, F P → F' P) :
    Confined F' E w v :=
  { h with
    outbox := by
      obtain ⟨o, ho, hx⟩ := h.outbox
      exact ⟨o, ho, fun x hxo => (hx x hxo).imp (hF _) id⟩
    pendingContact := fun t ht => (h.pendingContact t ht).imp id fun k => ⟨k.1, hF _ k.2⟩
    resendCooldown := fun i => (h.resendCooldown i).imp id (hF _)
    journal := by
      obtain ⟨l, hl, hx⟩ := h.journal
      refine ⟨l, hl, fun x hxl => ?_⟩
      have := hx x hxl
      revert this
      unfold Effect.About
      split
      all_goals first | exact hF _ | exact id | exact fun h u hu => hF _ (h u hu) }

theorem onward (h : Confined F E w v) : Onward w v where
  now := h.now.ge
  next := h.invitations.next
  event i r hr hi := by
    obtain ⟨x, hx, he, -⟩ := h.invitations.row_of_lt hr hi
    exact ⟨x, hx, he⟩
  nextToken := h.nextToken
  pendingContact t ht := (h.pendingContact t ht).imp id And.left
  journal := h.journal.imp fun _ h => h.1

end Confined

section

variable {R : World → World → Prop} {E : Scope} {s t u v : World} {i : Nat} {e : EventId}

structure Follows (R : World → World → Prop) : Prop where
  onward : ∀ {s t}, R s t → Onward s t
  trans : ∀ {s t u}, R s t → R t u → R s u
  absorb : ∀ {s t u v}, R s t → Onward t u → R u v → R s v
  now : ∀ {s t}, R s t → R t t

def Stays (R : World → World → Prop) (E : Scope) (w v : World) : Prop :=
  Confined (fun P => Seen R (World.Has E P) w) E w v

def Belongs (R : World → World → Prop) (E : Scope) (i : Nat) (e : EventId) (s : World) : Prop :=
  E i e ∧ Known R (fun v => ∃ r, v.row i = some r ∧ r.eventId = e) s

theorem Follows.carries (hR : Follows R) (hst : R s t) (htu : Onward t u) : Carries R s u :=
  fun _ hP _ huv => (hP _ hst).imp fun _ hp => ⟨hp.1, hR.absorb hp.2 htu huv⟩

theorem Follows.carries_interference (hR : Follows R) (hst : R s t) : Carries R s t :=
  hR.carries hst (.refl t)

theorem Belongs.of_row {r : Invitation} (hr : s.row i = some r) (hE : E i r.eventId) :
    Belongs R E i r.eventId s :=
  ⟨hE, .of_now ⟨r, hr, rfl⟩⟩

theorem Belongs.carry (h : Belongs R E i e s) (hC : Carries R s t) :
    Belongs R E i e t := ⟨h.1, hC _ h.2⟩

theorem Belongs.row (h : Belongs R E i e s) (hR : Follows R) (hst : R s t) {r : Invitation}
    (hr : t.row i = some r) : r.eventId = e := by
  obtain ⟨p, ⟨x, hx, he⟩, hpt⟩ := h.2 t hst
  obtain ⟨y, hy, he'⟩ := (hR.onward hpt).event i r hr (p.db.invitations.id_lt hx)
  rw [hx] at hy
  exact he'.trans ((congrArg Invitation.eventId (Option.some.inj hy)).symm.trans he)

theorem Belongs.has (h : Belongs R E i e s) (hst : R s t) :
    Seen R (World.Has E fun r => r.id = i ∧ r.eventId = e) t := by
  obtain ⟨p, ⟨x, hx, he⟩, hpt⟩ := h.2 t hst
  have hid : x.id = i := p.db.invitations.id_eq hx
  exact ⟨p, ⟨x, by rwa [hid], by rw [hid, he]; exact h.1, hid, he⟩, hpt⟩

theorem Belongs.has_id (h : Belongs R E i e s) (hst : R s t) :
    Seen R (World.Has E fun r => r.id = i) t :=
  (h.has hst).imp fun _ ⟨⟨r, hr, hE, hi, _⟩, hpt⟩ => ⟨⟨r, hr, hE, hi⟩, hpt⟩

theorem Known.has {P : Invitation → Prop} {r : Invitation}
    (hr : Known R (fun v => v.row i = some r) s) (hE : E i r.eventId) (hP : P r) (hst : R s t) :
    Seen R (World.Has E P) t := by
  obtain ⟨p, hp, hpt⟩ := hr t hst
  have hid : r.id = i := p.db.invitations.id_eq hp
  exact ⟨p, ⟨r, by rwa [hid], by rwa [hid], hP⟩, hpt⟩

theorem Follows.next_le (hR : Follows R) {n : Nat}
    (hn : Known R (fun v => n ≤ v.db.invitations.next) s)
    (hst : R s t) : n ≤ t.db.invitations.next := by
  obtain ⟨p, hp, hpt⟩ := hn t hst
  exact hp.trans (hR.onward hpt).next

theorem Belongs.patch (h : Belongs R E i e s) (hR : Follows R) (hst : R s t) (d : InvitationUpdate)
    (now : Nat) : t.db.invitations.Spares E (t.db.invitations.patch i d now) :=
  .patch fun _ hr => h.row hR hst hr ▸ h.1

def Mine (R : World → World → Prop) (E : Scope) (i : Nat) (s : World) : Prop :=
  (∀ e, E i e) ∨ ∃ e, Belongs R E i e s

theorem Belongs.mine (h : Belongs R E i e s) : Mine R E i s := .inr ⟨e, h⟩

theorem Mine.row (h : Mine R E i s) (hR : Follows R) (hst : R s t) {r : Invitation}
    (hr : t.row i = some r) : E i r.eventId := by
  rcases h with h | ⟨e, h⟩
  · exact h _
  · rw [h.row hR hst hr]
    exact h.1

variable {α : Type} {b : Query α} {K : α → World → Prop}

theorem within_look (hR : Follows R) (hb : b.Looks)
    (h : ∀ t, R s t → Carries R s t → b.Ends (fun x u => u = t → K x t) t) :
    (perform b).Within R (Stays R E) K s :=
  within_perform_of_moves hb (fun t u hu => by rw [hu]; exact .refl t) fun t hst =>
    (h t hst (hR.carries_interference hst)).mono fun _ u hK hu => by
      rw [hu]
      exact hK hu

theorem within_stays (hR : Follows R) (h : ∀ t, R s t → b.Post (fun r u => Stays R E t u ∧
      ∀ x, r = .ok x → Carries R s u → K x u) t) : (perform b).Within R (Stays R E) K s :=
  within_perform fun t hst => (h t hst).mono fun r u hr => by
    cases r with
    | ok x => exact ⟨hr.1, hr.2 x rfl (hR.carries hst hr.1.onward)⟩
    | error e => exact hr.1

theorem within_stays_call (hR : Follows R) {ε : Exception} {f : World → Except Exception α × World}
    (h : ∀ t, R s t → Stays R E t (f t).2 ∧
      ∀ x, (f t).1 = .ok x → Carries R s (f t).2 → K x (f t).2) :
    (perform (Block.call ε f)).Within R (Stays R E) K s :=
  within_stays hR fun t hst => Block.post_call.2 ⟨⟨.refl t, by simp⟩, h t hst⟩

def Confines (R : World → World → Prop) (E : Scope) (w : World) (b : Query α) (K : α → World → Prop)
    (v : World) : Prop :=
  b.Post (fun r u => Stays R E w u ∧ ∀ x, r = .ok x → K x u) v

variable {w : World} {β : Type}

theorem Confines.bind {K : β → World → Prop} {g : α → Query β}
    (h : Confines R E w b (fun x u => Stays R E w u → Confines R E w (g x) K u) v) :
    Confines R E w (b >>= g) K v :=
  Prog.post_bind.2 <| Prog.Post.mono h fun r u hr => by
    cases r with
    | ok x => exact hr.2 x rfl hr.1
    | error e => exact ⟨hr.1, by simp⟩

theorem Confines.weaken {K' : α → World → Prop} (h : Confines R E w b K v)
    (hK : ∀ x u, K x u → K' x u) :
    Confines R E w b K' v :=
  Prog.Post.mono h fun _ _ hr => ⟨hr.1, fun x hx => hK x _ (hr.2 x hx)⟩

theorem confines_ok {x : α} (hv : Stays R E w v) (hK : K x v) :
    Confines R E w (.ret (.ok x)) K v :=
  ⟨hv, fun _ hy => Except.ok.inj hy ▸ hK⟩

theorem confines_error {x : Exception} (hv : Stays R E w v) :
    Confines R E w (.ret (.error x) : Query α) K v :=
  ⟨hv, by simp⟩

theorem confines_look (hb : b.Looks) (hv : Stays R E w v) (h : b.Ends K v) : Confines R E w b K v :=
  ((hb v).and h).mono fun r u ⟨hu, hr⟩ => by
    subst hu
    refine ⟨hv, fun x hx => ?_⟩
    subst hx
    exact hr

theorem confines_reads (hb : b.Looks) (hv : Stays R E w v) (h : ∀ x, K x v) :
    Confines R E w b K v :=
  (hb v).mono fun _ _ hu => hu ▸ ⟨hv, fun x _ => h x⟩

theorem confines_call {ε : Exception} {f : World → Except Exception α × World} (hv : Stays R E w v)
    (hf : Stays R E w (f v).2) (hK : ∀ x, (f v).1 = .ok x → K x (f v).2) :
    Confines R E w (Block.call ε f) K v :=
  Block.post_call.2 ⟨⟨hv, by simp⟩, hf, hK⟩

theorem confines_updateInvitation {d : InvitationUpdate} {K : Invitation → World → Prop}
    (hv : Stays R E w v) (hE : ∀ r, v.row i = some r → E i r.eventId)
    (hK : ∀ r, v.row i = some r →
      K (d.apply v.now r) (v.setInvitations (v.db.invitations.patch i d v.now))) :
    Confines R E w (updateInvitation i d) K v :=
  post_update (fun _ => ⟨hv, by simp⟩)
    fun r hr => ⟨hv.table (.patch hE), fun _ hy => Except.ok.inj hy ▸ hK r hr⟩

theorem confines_updateManyInvitations {p : Invitation → Bool} {d : InvitationUpdate}
    {K : Nat → World → Prop} (hv : Stays R E w v) (hE : ∀ r, v.row i = some r → E i r.eventId)
    (hK : K 0 v) (hK' : (v.row i).any p = true →
      K 1 (v.setInvitations (v.db.invitations.patch i d v.now))) :
    Confines R E w (updateManyInvitations i p d) K v :=
  post_updateManyInvitations.2 ⟨⟨hv, by simp⟩,
    fun h => ⟨hv.table (.patch hE), fun _ hy => Except.ok.inj hy ▸ hK' h⟩,
    fun _ => ⟨hv, fun _ hy => Except.ok.inj hy ▸ hK⟩⟩

theorem confines_deleteInvitation {K : Invitation → World → Prop} (hv : Stays R E w v)
    (hE : ∀ r, v.row i = some r → E i r.eventId) (hK : ∀ r, v.row i = some r →
      K r (v.setInvitations (v.db.invitations.remove (· == i)))) :
    Confines R E w (deleteInvitation i) K v := by
  refine post_deleteInvitation.2 ⟨⟨hv, by simp⟩, fun r hr =>
    ⟨hv.table (.remove fun j x hj hx => ?_), fun _ hy => Except.ok.inj hy ▸ hK r hr⟩,
    fun _ => ⟨hv, by simp⟩⟩
  obtain rfl : j = i := by simpa using hj
  exact hE x hx

theorem confines_createInvitation {r : Invitation} {K : Invitation → World → Prop}
    (hv : Stays R E w v)
    (hE : E v.db.invitations.next r.eventId)
    (hK : ∀ h : v.db.invitations.ParentExists r.invitedByInvitationId,
      K ((r.stamped v.now).withId v.db.invitations.next)
        (v.setInvitations (v.db.invitations.insert (r.stamped v.now) h))) :
    Confines R E w (createInvitation r) K v := by
  refine Block.post_call.2 ⟨⟨hv, by simp⟩, ?_⟩
  split
  · rename_i h
    exact ⟨hv.table (.insert hE), fun _ hy => Except.ok.inj hy ▸ hK h⟩
  · exact ⟨hv, by simp⟩

theorem confines_enqueue {ctx : Context} {topic : String} {fact : AnalyticsFact}
    {K : Unit → World → Prop} (hv : Stays R E w v)
    (hx : Seen R (World.Has E fun r => r.id = fact.aggregateId) w ∨
      w.db.invitations.next ≤ fact.aggregateId ∧ ∃ e, E fact.aggregateId e)
    (hK : ∀ x, K () (v.addFacts [x])) : Confines R E w (enqueue ctx topic fact) K v := by
  unfold enqueue
  split
  · exact confines_error hv
  · exact confines_call hv (hv.addFact hx) fun _ _ => hK _

theorem within_confines (hR : Follows R)
    (h : ∀ t, R s t → Confines R E t b (fun x u => Carries R s u → K x u) t) :
    (Query.transaction b).Within R (Stays R E) K s :=
  guarantees_transaction fun t hst => (h t hst).mono fun r u hr => by
    have hundo : Stays R E t (World.rollback t u) := hr.1.rollback
    cases r with
    | ok x => exact ⟨⟨hr.1, hr.2 x rfl (hR.carries hst hr.1.onward)⟩, hundo, trivial⟩
    | error e => exact ⟨hundo, trivial⟩

end
end InvitationService

import InvitationService.Lifecycle.Runs

open Relation (ReflTransGen)

namespace InvitationService

open Resumption

/-! Calls whose steps interleave: what none of them ever takes back, and the rule for
an invariant that every step keeps. -/

def Invitation.KeepsEvent (r : Invitation) (i : Nat) (w : World) : Prop :=
  i < w.db.invitations.next → ∃ x, w.row i = some x ∧ r.eventId = x.eventId

structure Onward (v w : World) : Prop where
  now : v.now ≤ w.now
  next : v.db.invitations.next ≤ w.db.invitations.next
  event : ∀ i r, w.row i = some r → r.KeepsEvent i v
  nextToken : v.nextToken ≤ w.nextToken
  pendingContact : ∀ t < v.nextToken,
    w.pendingContact t = v.pendingContact t ∨ w.pendingContact t = none
  journal : ∃ l, w.journal = l ++ v.journal

namespace Onward

variable {R : World → World → Prop} {cfg : Config} {c : Call} {a u v w : World}

theorem refl (w : World) : Onward w w :=
  ⟨Nat.le_refl _, Nat.le_refl _, fun _ r hr _ => ⟨r, hr, rfl⟩, Nat.le_refl _, fun _ _ =>
    .inl rfl, [], rfl⟩

theorem trans (h : Onward u v) (k : Onward v w) : Onward u w where
  now := h.now.trans k.now
  next := h.next.trans k.next
  event i r hr hi := by
    obtain ⟨x, hx, he⟩ := k.event i r hr (Nat.lt_of_lt_of_le hi h.next)
    obtain ⟨y, hy, he'⟩ := h.event i x hx hi
    exact ⟨y, hy, he.trans he'⟩
  nextToken := h.nextToken.trans k.nextToken
  pendingContact t ht := by
    rcases k.pendingContact t (Nat.lt_of_lt_of_le ht h.nextToken) with e | e
    · rw [e]; exact h.pendingContact t ht
    · exact .inr e
  journal := by
    obtain ⟨l, hl⟩ := h.journal
    obtain ⟨m, hm⟩ := k.journal
    exact ⟨m ++ l, by rw [hm, hl, List.append_assoc]⟩

theorem mem (h : Onward v w) {x : Effect} (hx : x ∈ v.journal) : x ∈ w.journal := by
  obtain ⟨l, hl⟩ := h.journal
  rw [hl]
  exact List.mem_append_right _ hx

theorem log (w : World) (x : Effect) : Onward w (w.log x) :=
  ⟨Nat.le_refl _, Nat.le_refl _, fun _ r hr _ => ⟨r, hr, rfl⟩, Nat.le_refl _, fun _ _ =>
    .inl rfl, [x], rfl⟩

theorem of_environment (h : World.Environment v w) : Onward v w where
  now := (Kept.of_environment h).now
  next := (Kept.of_environment h).next.ge
  event i r hr _ := ⟨r, by rwa [World.row, ← environment_db h], rfl⟩
  nextToken := (Kept.of_environment h).nextToken
  pendingContact := (Kept.of_environment h).pendingContact
  journal := (Kept.of_environment h).journal

end Onward

section

variable {R : World → World → Prop} {cfg : Config} {c : Call} {a v w : World}

/-- Row `i`, being `r` now, has the `f` it had at `w`. -/
def Invitation.Keeps {α : Type} (f : Invitation → α) (r : Invitation) (i : Nat)
    (w : World) : Prop :=
  i < w.db.invitations.next → ∃ x, w.row i = some x ∧ f r = f x

variable {α : Type} {f : Invitation → α}

theorem Write.keeps {i : Nat} {o : Option Invitation} {r : Invitation}
    (h : Write R cfg c a w i o (some r))
    (hf : ∀ (d : InvitationUpdate) now x, f (d.apply now x) = f x)
    (ho : ∀ x, o = some x → x.Keeps f i w) : r.Keeps f i w := by
  have happly : ∀ (d : InvitationUpdate) now x, o = some x → (d.apply now x).Keeps f i w := by
    intro d now x hx hi
    obtain ⟨y, hy, he⟩ := ho x hx hi
    exact ⟨y, hy, (hf d now x).trans he⟩
  cases h with
  | insert hi _ => exact fun hlt => absurd hi (Nat.not_le.2 hlt)
  | modify _ _ => exact happly _ _ _ rfl
  | reply _ _ _ _ _ _ => exact happly _ _ _ rfl
  | attach _ _ _ _ => exact happly _ _ _ rfl
  | reject _ _ _ => exact happly _ _ _ rfl
  | send _ _ _ _ _ _ => exact happly _ _ _ rfl
  | stage _ _ _ _ => exact happly _ _ _ rfl

theorem Action.keeps (hA : Action R cfg c a w v)
    (hf : ∀ (d : InvitationUpdate) now x, f (d.apply now x) = f x) :
    ∀ i r, v.row i = some r → r.Keeps f i w :=
  hA.rows (fun _ r hr _ => ⟨r, hr, rfl⟩) (fun _ _ _ hwr ho => hwr.keeps hf ho)
    fun _ _ x _ _ _ _ _ _ hx _ => ⟨x, hx, hf _ _ _⟩

theorem Write.keepsEvent {i : Nat} {o : Option Invitation} {r : Invitation}
    (h : Write R cfg c a w i o (some r)) (ho : ∀ x, o = some x → x.KeepsEvent i w) :
    r.KeepsEvent i w :=
  h.keeps (f := Invitation.eventId) (fun _ _ _ => rfl) ho

theorem Action.keepsEvent (hA : Action R cfg c a w v) :
    ∀ i r, v.row i = some r → r.KeepsEvent i w :=
  hA.keeps (f := Invitation.eventId) fun _ _ _ => rfl

theorem Onward.of_action (hA : Action R cfg c a w v) : Onward w v := by
  have hev := hA.keepsEvent
  have hn := hA.next_le
  have hj : ∃ l, v.journal = l ++ w.journal := hA.journal.imp fun _ h => h.1
  have hnow := hA.now_eq.ge
  cases hA with
  | step hs _ _ _ _ _ => exact ⟨hnow, hn, hev, hs.nextToken, fun _ => hs.pendingContact_of_lt, hj⟩
  | project hp =>
    exact ⟨hnow, hn, hev, hp.side.nextToken, fun _ => hp.side.pendingContact_of_lt, hj⟩
  | approve _ _ _ _ => exact ⟨hnow, hn, hev, Nat.le_refl _, fun _ _ => .inl rfl, hj⟩
  | confirm _ _ _ _ _ _ _ => exact .log _ _
  | resent _ => exact .log _ _
  | reminded _ => exact .log _ _
  | ticket _ _ => exact .log _ _

end

section

variable {cfg : Config} {I : World → Prop}

def Upheld (cfg : Config) (I : World → Prop) (c : Call) (a : World) : Prop :=
  ∀ s t, I s → Onward a s → Action (System.Rely I Onward a) cfg c a s t → I t

theorem Upheld.stable {c : Call} {a : World} (h : Upheld cfg I c a) :
    Stable (System.Rely I Onward a) cfg c a where
  trans hst htu := ⟨hst.1, htu.2.1, hst.2.2.1, hst.2.2.2.trans htu.2.2.2⟩
  next_le h := h.2.2.2.next
  absorb := by
    rintro s t u ⟨hs, ht, has, hst⟩ hA -
    exact ⟨hs, h t u ht (has.trans hst) hA, has, hst.trans (.of_action hA)⟩

theorem disciplined_of_upheld {P : Request → Prop} (henv : ∀ s t, I s → World.Environment s t → I t)
    (harrive : ∀ q s, I s → Enabled q s → I (s.log (.called q.call)))
    (hact : ∀ (q : Request) (s : World), P q → I (s.log (.called q.call)) →
      Upheld cfg I q.call (s.log (.called q.call))) :
    (service cfg).Disciplined P I Onward fun (q : Request) a =>
      Action (System.Rely I Onward a) cfg q.call a where
  refl := Onward.refl
  trans _ _ _ h k := h.trans k
  env s t hi he := ⟨henv s t hi he, .of_environment he⟩
  arrive q s hi hen := ⟨harrive q s hi hen, .log s _⟩
  exec q s hq ha := (execute_conforms (hact q s hq ha).stable).mono (fun _ _ h => h)
    (fun _ _ h => h) fun _ _ _ => trivial
  step q s t u hq ha hi hm hA := ⟨hact q s hq ha t u hi hm hA, .of_action hA⟩

theorem Interleaved.invariant_of_calls {P : Request → Prop} {s₀ s : World}
    {ts : List (System.Thread (Nat → Bool) World Exception Request)}
    (hs : (service cfg).Interleaved s₀ ts s) (hP : ∀ x ∈ ts, P x.call) (h₀ : I s₀)
    (henv : ∀ s t, I s → World.Environment s t → I t)
    (harrive : ∀ q s, I s → Enabled q s → I (s.log (.called q.call)))
    (hact : ∀ (q : Request) (s : World), P q → I (s.log (.called q.call)) →
      Upheld cfg I q.call (s.log (.called q.call))) : I s :=
  (disciplined_of_upheld henv harrive hact).invariant hs hP h₀

theorem Interleaved.invariant_of_actions {s₀ s : World}
    {ts : List (System.Thread (Nat → Bool) World Exception Request)}
    (hs : (service cfg).Interleaved s₀ ts s) (h₀ : I s₀)
    (henv : ∀ s t, I s → World.Environment s t → I t)
    (harrive : ∀ q s, I s → Enabled q s → I (s.log (.called q.call)))
    (hact : ∀ (q : Request) (s : World), Upheld cfg I q.call (s.log (.called q.call))) : I s :=
  Interleaved.invariant_of_calls (P := fun _ => True) hs (fun _ _ => trivial) h₀ henv harrive
    fun q s _ _ => hact q s

theorem Passed.along_actions {N : World → World → Prop} {s₀ u s : World}
    {ts : List (System.Thread (Nat → Bool) World Exception Request)}
    (hs : (service cfg).Passed s₀ u ts s) (hrefl : ∀ s, N s s)
    (htrans : ∀ s t u, N s t → N t u → N s u) (henv : ∀ s t, World.Environment s t → N s t)
    (hlog : ∀ s x, N s (s.log x)) (hact : ∀ R c a s t, Action R cfg c a s t → N s t) : N u s := by
  have hall : (service cfg).Disciplined (fun _ => True) (fun _ => True) Onward
      fun (q : Request) a => Action (System.Rely (fun _ => True) Onward a) cfg q.call a :=
    disciplined_of_upheld (fun _ _ _ _ => trivial) (fun _ _ _ _ => trivial)
      fun _ _ _ _ _ _ _ _ _ => trivial
  exact hall.along hs trivial hrefl htrans henv (fun q s => hlog s _) fun q a => hact _ q.call a

/-- Every step of a call, whatever the interleaving, is one of its actions. -/
theorem Interleaved.action {s₀ a s : World} {q : Request} {β : Type}
    {us vs : List (System.Thread (Nat → Bool) World Exception Request)}
    {f : (Nat → Bool) → World → Except Exception β × World} {k : β → Program Unit}
    (hs : (service cfg).Interleaved s₀ (us ++ ⟨q, a, .step f k⟩ :: vs) s) (i : Nat → Bool) :
    Action (System.Rely (fun _ => True) Onward a) cfg q.call a s (f i s).2 :=
  (disciplined_of_upheld (P := fun _ => True) (I := fun _ => True) (fun _ _ _ _ => trivial)
    (fun _ _ _ _ => trivial) fun _ _ _ _ _ _ _ _ _ => trivial).step_guaranteed hs
      (fun _ _ => trivial) trivial i

end
end InvitationService

import InvitationService.Invariants.Contact
import InvitationService.Lifecycle.Removal

open Relation (ReflTransGen)

namespace InvitationService

open Resumption Query InvitationTable

variable {cfg : Config} {ctx : Context} {c : Call} {a s v w : World} {t u : InvitationTable}
  {i j k now : Nat} {r x : Invitation}

def Invitation.listed (r : Invitation) : List Nat :=
  (r.pendingContactPayload.map fun p => p.plusOnes.map (·.invitationId)).getD []

theorem Invitation.listed_of_none (h : r.pendingContactPayload = none) : r.listed = [] := by
  rw [listed, h]
  rfl

theorem Invitation.mem_listed {p : PendingUser} (h : r.pendingContactPayload = some p) :
    k ∈ r.listed ↔ ∃ q ∈ p.plusOnes, q.invitationId = k := by
  rw [listed, h]
  exact List.mem_map

/-- A pending contact is complete or absent, and lists plus-ones of its row. -/
structure Listing (t : InvitationTable) (i : Nat) (r : Invitation) : Prop where
  paired : r.pendingContactId.isSome = r.pendingContactPayload.isSome
  children : ∀ k ∈ r.listed, t.parent k = some i

def Listings (t : InvitationTable) : Prop := ∀ i r, t.row i = some r → Listing t i r

theorem Listing.of_eq (h : Listing t i x) (hid : r.pendingContactId = x.pendingContactId)
    (hp : r.pendingContactPayload = x.pendingContactPayload) : Listing t i r :=
  ⟨by rw [hid, hp]; exact h.paired, by rw [Invitation.listed, hp]; exact h.children⟩

theorem Listing.of_none (hid : r.pendingContactId = none) (hp : r.pendingContactPayload = none) :
    Listing t i r :=
  ⟨by rw [hid, hp]; rfl, by rw [Invitation.listed_of_none hp]; simp⟩

theorem Listing.of_lists {token : Nat} {p : PendingUser} (h : p.Lists t i)
    (hid : r.pendingContactId = some token) (hp : r.pendingContactPayload = some p) :
    Listing t i r := by
  refine ⟨by rw [hid, hp]; rfl, fun k hk => ?_⟩
  obtain ⟨q, hq, rfl⟩ := (Invitation.mem_listed hp).1 hk
  exact h q hq

theorem Listing.lists {p : PendingUser} (h : Listing t i r)
    (hp : r.pendingContactPayload = some p) :
    p.Lists t i := fun q hq =>
  h.children _ ((Invitation.mem_listed hp).2 ⟨q, hq, rfl⟩)

theorem Listing.mono (h : Listing t i r) (hpar : ∀ k, t.parent k = some i → u.parent k = some i) :
    Listing u i r :=
  ⟨h.paired, fun k hk => hpar k (h.children k hk)⟩

theorem PendingUser.Lists.overrideLocale {p : PendingUser} (h : p.Lists t i)
    (locale : Option Locale) : (GuestConfirmation.overrideLocale p locale).Lists t i := by
  unfold GuestConfirmation.overrideLocale
  split
  · split
    · exact h
    · exact h
  · exact h

namespace Listings

theorem patch {d : InvitationUpdate} (h : Listings t)
    (hd : ∀ x, t.row j = some x → Listing t j (d.apply now x)) : Listings (t.patch j d now) := by
  have hmono : ∀ {i r}, Listing t i r → Listing (t.patch j d now) i r := fun hl =>
    hl.mono fun k hk => parent_patch.trans hk
  intro i r hr
  rw [patch_row] at hr
  split at hr
  · rename_i hi
    subst hi
    obtain ⟨x, hx, rfl⟩ := Option.map_eq_some_iff.1 hr
    exact hmono (hd x hx)
  · exact hmono (h i r hr)

theorem modify {d : InvitationUpdate} (h : Listings t) (hid : d.pendingContactId = none)
    (hp : d.pendingContactPayload = none) : Listings (t.patch j d now) :=
  h.patch fun x hx => (h j x hx).of_eq (by rw [InvitationUpdate.apply, hid]; rfl)
    (by rw [InvitationUpdate.apply, hp]; rfl)

theorem attach {token : Nat} {p : PendingUser} (h : Listings t) (hp : p.Lists t j) :
    Listings (t.patch j (pendingUpdate token p) now) :=
  h.patch fun _ _ => .of_lists hp rfl rfl

theorem insert {hp : t.ParentExists r.invitedByInvitationId} (h : Listings t)
    (hid : r.pendingContactId = none) (hpay : r.pendingContactPayload = none) :
    Listings (t.insert r hp) := by
  intro i x hx
  by_cases hi : i = t.next
  · subst hi
    rw [insert_row_next] at hx
    cases hx
    exact .of_none hid hpay
  · rw [insert_row_of_ne hp hi] at hx
    refine (h i x hx).mono fun k hk => ?_
    obtain ⟨y, hy, -⟩ := parent_eq_some.1 hk
    exact (parent_insert_of_lt hp (t.id_lt hy)).trans hk

theorem insertAll {rs : List Invitation} (hins : InsertAll t rs u) (h : Listings t)
    (hrs : ∀ r ∈ rs, r.pendingContactId = none ∧ r.pendingContactPayload = none) : Listings u := by
  induction hins with
  | nil => exact h
  | @cons t u r rs hp _ ih =>
    obtain ⟨hr, hrs⟩ := List.forall_mem_cons.1 hrs
    exact ih (h.insert hr.1 hr.2) hrs

theorem stageAll {staged : Bool} {rs : List Invitation} (hst : StageAll staged now t rs u)
    (h : Listings t) : Listings u := by
  induction hst with
  | nil => exact h
  | cons _ ih => exact ih (h.modify rfl rfl)

end Listings

def Listed (w : World) : Prop := Listings w.db.invitations

/-- Every link that goes out in the step is for a contact that lists plus-ones of its row. -/
def Provisions (v w : World) : Prop :=
  ∀ l, w.journal = l ++ v.journal → ∀ x ∈ l, ∀ i e token, x.Issues i e token →
    ∀ p, w.pendingContact token = some p → p.Lists v.db.invitations i

def Lists (v w : World) : Prop := Listed v → Listed w ∧ Provisions v w

theorem Listed.of_db (h : Listed v) (hdb : w.db = v.db) : Listed w := by
  rwa [Listed, hdb]

theorem Side.provisions (h : Side v w) : Provisions v w := by
  obtain ⟨m, hm, hsilent⟩ := h.journal
  intro l hl x hx i e token hxi
  obtain rfl : l = m := List.append_cancel_right (hl.symm.trans hm)
  exact absurd (hsilent x hx) hxi.confirms.loud

theorem Side.lists (h : Side v w) (hw : Listed v → Listed w) : Lists v w := fun hv =>
  ⟨hw hv, h.provisions⟩

theorem Hush.lists (h : Hush v w) : Lists v w := h.1.lists fun hv => hv.of_db h.2

structure Alone (v w : World) : Prop where
  before : Listed v
  after : Listed w
  kept : Kept v w

theorem Kept.parent_eq (h : Kept v w) : w.db.invitations.parent i = v.db.invitations.parent i := by
  have := h.row i
  unfold World.row at this
  rw [parent, parent]
  cases hv : v.db.invitations.row i with
  | none =>
    rw [hv] at this
    rw [Option.map_eq_none_iff.1 this]
  | some x =>
    rw [hv] at this
    obtain ⟨y, hy, he⟩ := Option.map_eq_some_iff.1 this
    rw [hy]
    have hp : y.invitedByInvitationId = x.invitedByInvitationId :=
      congrArg (·.invitedByInvitationId) he
    exact hp

theorem Alone.listing (h : Alone v w) (hr : v.row i = some r) : Listing w.db.invitations i r :=
  (h.before i r hr).mono fun _ hk => h.kept.parent_eq.trans hk

theorem PayloadOf.lists {p : PendingUser} (h : PayloadOf Alone r p w) (hr : Snapshot Alone i r w) :
    p.Lists w.db.invitations i := by
  obtain ⟨v, hv, ha⟩ := hr
  have hl := ha.listing hv
  obtain ⟨_, ⟨stored, locale, rfl, hs⟩, -⟩ := h
  rcases hs with hs | ⟨token, hnone, htoken, -⟩
  · exact (hl.lists hs).overrideLocale locale
  · have := hl.paired
    rw [hnone, htoken] at this
    cases this

def Call.submits : Call → Bool
  | .replyInvitation .. | .createInvitationFromRsvp .. | .createPlusOnesInvitation .. => true
  | _ => false

def Call.tame (c : Call) : Bool := !c.submits && !c.removal

theorem Change.listings {o : List OutboxRow} (h : Change Alone cfg c a w t o) (hc : c.tame = true)
    (hw : Listed w) : Listings t := by
  cases h with
  | same _ => exact hw
  | create hcreates _ =>
    have hb := (Born.created hcreates).blank
    exact hw.insert hb.pendingContactId hb.pendingContactPayload
  | details _ hd => exact hw.modify hd.pendingContactId hd.pendingContactPayload
  | limit _ _ _ | link _ => exact hw.modify rfl rfl
  | reject _ _ _ => exact hw.patch fun _ _ => .of_none rfl rfl
  | send hr _ _ hp _ _ => exact hw.patch fun _ _ => .of_lists (hp.lists hr) rfl rfl
  | stage _ _ _ hst => exact hw.stageAll hst
  | reply hc' _ _ _ _ _ _ _ | plusOne _ hc' _ _ _ _ _ _ | publicRsvp hc' _ _ _
  | attach hc' _ _ _ _ | deleteOne hc' _ _ | deleteAll hc' _ _ _ | removeMany hc' _ =>
    rw [hc'] at hc
    cases hc
  | remove hc' => cases c <;> first | exact False.elim hc' | cases hc

theorem Action.listed (hA : Action Alone cfg c a w v) (hc : c.tame = true) (hw : Listed w) :
    Listed v := by
  cases hA with
  | step _ hch _ _ _ _ => exact hch.listings hc hw
  | project hp => exact (congrArg Listings hp.invitations).mpr hw
  | approve _ _ _ _ => exact hw.modify rfl rfl
  | confirm _ _ _ _ _ _ _ | resent _ | reminded _ | ticket _ _ => exact hw

theorem Action.provisions (hA : Action Alone cfg c a w v) : Provisions w v := by
  have hon := Onward.of_action hA
  obtain ⟨m, hm, hu⟩ := hA.journal
  intro l hl x hx i e token hxi p hp
  obtain rfl : l = m := List.append_cancel_right (hl.symm.trans hm)
  obtain ⟨r, payload, t, _, _, _, _, _, _, rfl, hr, -, hpay, ht, -⟩ :=
    (hu x hx).of_confirms hxi.confirms
  obtain ⟨-, -, rfl⟩ : i = i ∧ r.eventId = e ∧ t = token := hxi
  obtain ⟨y, ⟨hcached, hlt⟩, hy⟩ := ht
  have hkeep : v.pendingContact t = some payload ∨ v.pendingContact t = none := by
    rcases hon.pendingContact t (Nat.lt_of_lt_of_le hlt hy.kept.nextToken) with hk | hk
    · rw [hk, ← hcached]
      exact (hy.kept.pendingContact t hlt).imp_right fun h => h
    · exact .inr hk
  rcases hkeep with hk | hk
  · rw [hk] at hp
    cases hp
    exact hpay.lists hr
  · rw [hk] at hp
    cases hp

theorem Action.lists (hA : Action Alone cfg c a w v) (hc : c.tame = true) : Lists w v := fun hw =>
  ⟨hA.listed hc hw, hA.provisions⟩

theorem stable_alone (hc : c.tame = true) : Stable Alone cfg c a where
  trans h k := ⟨h.before, k.after, h.kept.trans k.kept⟩
  next_le h := h.kept.next.ge
  absorb h hA hk := ⟨h.before, hA.listed hc h.after, h.kept.trans hk⟩

abbrev KeepsListed {α : Type} (p : Program α) (s : World) : Prop :=
  p.Within Alone Lists (fun _ _ => True) s

section

variable {α : Type} {b : Query α} {K : α → World → Prop}

theorem Conforms.keeps {p : Program α} (h : Conforms Alone cfg c a p s) (hc : c.tame = true) :
    KeepsListed p s :=
  h.mono (fun _ _ h => h) (fun _ _ hA => hA.lists hc) fun _ _ h => h

theorem KeepsListed.seq {β : Type} {p : Program α} {g : α → Program β} (hp : KeepsListed p s)
    (hg : ∀ x t, KeepsListed (g x) t) : KeepsListed (p >>= g) s :=
  Prog.Within.bind <| Prog.Within.weaken hp fun x t _ => hg x t

theorem lists_hush (hb : b.Moves Hush)
    (h : ∀ t, Alone s t → b.Ends (fun x u => u.db = t.db → K x u) t) :
    (perform b).Within Alone Lists K s :=
  within_perform_of_moves hb (fun _ _ h => h.lists) fun t hst =>
    (h t hst).mono fun _ _ hu hh => hu hh.2

theorem keeps_hush (hb : b.Moves Hush) : KeepsListed (perform b) s :=
  lists_hush hb fun _ _ => (Prog.ends_true b).mono fun _ _ _ _ => trivial

theorem lists_transaction (hb : b.Moves Side) (h : ∀ t, Alone s t → b.Ends (fun x u =>
      (Listed t → Listed u) ∧ K x u) t) : (Query.transaction b).Within Alone Lists K s :=
  within_transaction hb (fun _ _ hu => Hush.lists ⟨hu.rollback, rfl⟩) fun t hst =>
    (h t hst).mono fun _ _ hu hside => ⟨hside.lists hu.1, hu.2⟩

theorem keeps_forM {β : Type} {g : β → Program PUnit} {xs : List β}
    (h : ∀ x t, KeepsListed (g x) t) :
    KeepsListed (xs.forM g) s :=
  Prog.Within.weaken (Prog.within_forM (K := fun _ => True) (fun x _ t _ => h x t) trivial)
    fun _ _ _ => trivial

theorem keeps_ite {P : Prop} [Decidable P] {p q : Program α} (hp : KeepsListed p s)
    (hq : KeepsListed q s) :
    KeepsListed (if P then p else q) s := by
  split
  · exact hp
  · exact hq

theorem keeps_approve {input : ApproveInvitationDTO} (h : input.approve = true) :
    KeepsListed (AdminWrite.approve cfg ctx input) s :=
  Conforms.keeps (c := .approveInvitation input) (a := s) (AdminWrite.approve_conforms
    (stable_alone rfl) (fun h => .of_always fun _ => .inl ⟨h, rfl⟩) (fun h _ => ⟨h, rfl, rfl⟩)
    fun hn => absurd h (by simp [hn])) rfl

end

namespace GuestWrite

theorem reply_keeps {input : RSVPInput} {locale : Locale} :
    KeepsListed (reply cfg ctx input locale) s := by
  unfold reply
  simp only [liftM_eq]
  refine Prog.Within.bind <| lists_hush hush_ensureExists fun t _ => ends_ensureExists.2
    fun r hr _ => ?_
  have hid : r.id = input.invitationId := t.db.invitations.id_eq hr
  refine (keeps_hush hush_findSettings).seq fun settings t => ?_
  cases planReply r input with
  | error e => trivial
  | ok plan =>
    rw [Prog.ok_bind]
    refine (keeps_hush hush_clock).seq fun now t => ?_
    refine KeepsListed.seq (lists_transaction moves_replyTransaction fun w _ =>
      ends_replyTransaction hid
      fun r' _ t u v o _ hins hu _ hdb => ⟨fun hw => ?_, trivial⟩) fun result t => ?_
    · have ht : Listings t := (hw.modify rfl rfl).insertAll hins fun x hx => by
        obtain ⟨p, -, rfl⟩ := List.mem_map.1 hx
        exact ⟨rfl, rfl⟩
      rw [Listed, show v.db.invitations = u from congrArg Database.invitations hdb]
      rcases hu with rfl | ⟨token, payload, -, -, hlists, rfl⟩
      · exact ht
      · exact ht.attach hlists.2
    · refine (keeps_forM fun _ _ => keeps_hush hush_publishSeatingInfoUpdated).seq fun _ t => ?_
      refine keeps_ite ?_ trivial
      split
      · trivial
      · exact (keeps_approve rfl).seq fun _ _ => trivial

theorem createPlusOne_keeps {input : CreatePlusOneInput} {user : UserId} {locale : Locale} :
    KeepsListed (createPlusOne cfg ctx input user locale) s := by
  unfold createPlusOne
  simp only [liftM_eq]
  cases hids : createPlusOneIds input with
  | error e => trivial
  | ok ids =>
    obtain ⟨e, p⟩ := ids
    cases hnames : validateNames input.firstName input.lastName input.plusOneAgeCategory
        input.phoneNumbers with
    | error e => trivial
    | ok _ =>
      rw [Prog.ok_bind, Prog.ok_bind]
      refine KeepsListed.seq (lists_transaction moves_createPlusOneTransaction fun w _ =>
        ends_createPlusOneTransaction hids hnames
          fun r child auto hpar payload o result v _ hchild _ hnone _ _ hdb =>
            ⟨fun hw => ?_, trivial⟩) fun result t => ?_
      · subst hchild
        rw [Listed, show v.db.invitations = _ from congrArg Database.invitations hdb]
        refine Listings.attach (Listings.insert (Listings.modify hw rfl rfl) rfl rfl) fun q hq => ?_
        rw [hnone] at hq
        cases hq
      · exact (keeps_hush hush_publishInvitationCreated).seq fun _ _ =>
          keeps_ite (keeps_approve rfl) trivial

theorem createFromPublicRsvp_keeps {input : PublicRsvpInput} {locale : Locale} :
    KeepsListed (createFromPublicRsvp cfg ctx input locale) s := by
  unfold createFromPublicRsvp
  simp only [liftM_eq]
  refine keeps_ite trivial ?_
  cases hv : input.plusOnes.forM validatePlusOne with
  | error e => trivial
  | ok _ =>
    rw [Prog.ok_bind]
    refine (keeps_hush hush_findSettings).seq fun settings t => ?_
    refine Prog.Within.bind <| Prog.Within.weaken (lists_transaction
      (K := fun (x : Invitation × List Invitation) u => ChildrenOf u.db.invitations x.1.id x.2)
      moves_publicRsvpTransaction fun w _ =>
        ends_publicRsvpTransaction (validatePlusOnes_ok hv) fun hp rows t o hins hrows _ =>
          ⟨fun hw => ?_, hrows⟩) ?_
    · refine (Listings.insert hw rfl rfl).insertAll hins fun x hx => ?_
      obtain ⟨p, -, rfl⟩ := List.mem_map.1 hx
      exact ⟨rfl, rfl⟩
    · rintro ⟨invitee, rows⟩ u hrows
      have hcarry : ∀ {x y : World}, Alone x y → ChildrenOf x.db.invitations invitee.id rows →
          ChildrenOf y.db.invitations invitee.id rows := fun h hx r hr =>
        h.kept.parent_eq.trans (hx r hr)
      refine Prog.Within.bind <| lists_hush hush_clock fun t ht => ends_clock.2 fun _ => ?_
      have hrows := hcarry ht hrows
      refine Prog.Within.bind <| lists_hush hush_cacheSet fun t' ht' =>
        ends_cacheSet.2 fun hdb => ?_
      have hrows := hcarry ht' hrows
      rw [← hdb] at hrows
      refine KeepsListed.seq (within_perform fun v hv => (post_updateInvitation rfl).2
        ⟨(Hush.refl v).lists, fun r _ => ⟨?_, trivial⟩, fun _ => (Hush.refl v).lists⟩)
          fun updated t => ?_
      · refine Side.lists (Side.of_eq rfl rfl rfl rfl) fun hl => Listings.attach hl ?_
        exact List.forall_mem_map.2 (hcarry hv hrows)
      · refine (keeps_hush hush_publishInvitationCreated).seq fun _ _ => ?_
        refine (keeps_forM fun _ _ => keeps_hush hush_publishSeatingInfoUpdated).seq fun _ _ => ?_
        exact keeps_ite (keeps_approve rfl) trivial

end GuestWrite

/-- The call removes no plus-one that a contact lists, unless the row of the contact goes too. -/
def Call.SparesListed (c : Call) (t : InvitationTable) : Prop :=
  ∀ i < t.next, ∀ r ∈ t.row i, ∀ k ∈ r.listed, c.targets t k = true →
    t.under (c.targets t) i = true

instance (c : Call) (t : InvitationTable) : Decidable (c.SparesListed t) := by
  unfold Call.SparesListed
  infer_instance

namespace Cleared

theorem parent_eq (h : Cleared c t u) (hi : t.under (c.targets t) i = false) :
    u.parent i = t.parent i := by
  have hparent : ∀ o : Option Invitation, o.bind (·.invitedByInvitationId) =
      (o.map Invitation.standing).bind (·.invitedByInvitationId) := fun o => by cases o <;> rfl
  rw [parent, parent, hparent, h.row_eq hi, ← hparent]

theorem row_some (h : Cleared c t u) (hr : u.row i = some r) :
    t.under (c.targets t) i = false ∧ ∃ x, t.row i = some x ∧ x.standing = r.standing := by
  have hrow := h.row i
  rw [hr, remove_row] at hrow
  split at hrow
  · cases hrow
  · rename_i hu
    exact ⟨by simpa using hu, Option.map_eq_some_iff.1 hrow.symm⟩

theorem listings (h : Cleared c t u) (ht : Listings t) (hc : c.SparesListed t) : Listings u := by
  intro i r hr
  obtain ⟨hi, x, hx, he⟩ := h.row_some hr
  have hlisting : Listing t i r := (ht i x hx).of_eq (congrArg (·.pendingContactId) he).symm
    (congrArg (·.pendingContactPayload) he).symm
  have hlisted : r.listed = x.listed := by
    rw [Invitation.listed, Invitation.listed,
      show r.pendingContactPayload = x.pendingContactPayload from
        (congrArg (·.pendingContactPayload) he).symm]
  refine ⟨hlisting.paired, fun k hk => ?_⟩
  have hpar := hlisting.children k hk
  have hstays : t.under (c.targets t) k = false := by
    refine Bool.eq_false_iff.2 fun hu => ?_
    have hup : t.under (c.targets t) i = true := by
      rcases under_iff.1 hu with htarget | ⟨p, hp, hup⟩
      · exact hc i (t.id_lt hx) x hx k (hlisted ▸ hk) htarget
      · rw [hpar] at hp
        cases hp
        exact hup
    rw [hi] at hup
    cases hup
  exact (h.parent_eq hstays).trans hpar

end Cleared

theorem Clears.lists (h : Clears c t v w) (hc : c.SparesListed t) : Lists v w :=
  h.side.lists fun hv => by
    rcases h.table with he | ⟨he, hcleared⟩
    · exact (congrArg Listings he).mpr hv
    · exact hcleared.listings (he ▸ hv) hc

theorem execute_keeps {q : Request} (hq : q.call.removal = false) :
    KeepsListed (execute cfg q) s := by
  cases hsub : q.call.submits with
  | true =>
    obtain ⟨c, ctx⟩ := q
    cases c with
    | replyInvitation input locale => exact GuestWrite.reply_keeps.seq fun _ _ => trivial
    | createInvitationFromRsvp input locale =>
      exact GuestWrite.createFromPublicRsvp_keeps.seq fun _ _ => trivial
    | createPlusOnesInvitation input user locale =>
      exact GuestWrite.createPlusOne_keeps.seq fun _ _ => trivial
    | _ => cases hsub
  | false =>
    have hc : q.call.tame = true := by simp [Call.tame, hsub, hq]
    exact (execute_conforms (s := s) (stable_alone hc)).keeps hc

theorem Listed.environments (h : ReflTransGen World.Environment v w) (hv : Listed v) :
    (Alone v w ∧ w.db = v.db) ∧ Listed w :=
  have hdb := environments_db h
  ⟨⟨⟨hv, hv.of_db hdb, .of_environments h⟩, hdb⟩, hv.of_db hdb⟩

theorem listed_of_exec {q : Request} {o : Except Exception Unit} (hs : Listed s)
    (hq : q.call.SparesListed s.db.invitations)
    (hex : Prog.Exec (ReflTransGen (service cfg).env) ((service cfg).exec q)
      ((service cfg).arrive q s) o w) : Listed w := by
  have hg : ((service cfg).exec q).Guarantees (fun v w => Alone v w ∧ w.db = v.db) Lists
      (fun _ _ => True) ((service cfg).arrive q s) := by
    cases hrem : q.call.removal with
    | true =>
      have hr : Removes q.call s.db.invitations (execute cfg q) ((service cfg).arrive q s) :=
        execute_removes hrem
      exact (hr rfl).mono (fun _ _ h => h.2) (fun _ _ h => h.lists hq) fun _ _ _ => trivial
    | false =>
      exact (execute_keeps hrem).mono (fun _ _ h => h.1) (fun _ _ h => h) fun _ _ _ => trivial
  exact (hex.sound_rely hg hs (fun _ _ hv he => Listed.environments he hv)
    fun _ _ hv hA => (hA hv).1).1

theorem provisions_of_makes {q : Request} (hs : Listed s)
    (hex : Prog.Makes (ReflTransGen (service cfg).env) ((service cfg).exec q)
      ((service cfg).arrive q s) v w) : Provisions v w := by
  cases hrem : q.call.removal with
  | true =>
    exact (hex.sound (I := fun _ => True) (removal_guarantees hrem) trivial (fun _ _ _ _ => trivial)
      fun _ _ _ _ => trivial).2.side.provisions
  | false =>
    have hg : KeepsListed (execute cfg q) ((service cfg).arrive q s) := execute_keeps hrem
    obtain ⟨hv, hA⟩ := hex.sound_rely (I := Listed) hg hs
      (fun _ _ hv he => (Listed.environments he hv).imp_left And.left) fun _ _ hv hA => (hA hv).1
    exact (hA hv).2

/-- As long as no plus-one is removed that the contact of a remaining invitation lists, every stored
contact lists plus-ones of its invitation, and so does every contact that a link goes out for. -/
theorem listed_plusOnes_kept {h : List CallRecord} (hs : (service cfg).Serial .empty h w)
    (hspares : ∀ x ∈ h, x.call.call.SparesListed x.before.db.invitations) :
    (∀ i r p, w.row i = some r → r.pendingContactPayload = some p →
      ∀ q ∈ p.plusOnes, ∃ x, w.row q.invitationId = some x ∧ x.invitedByInvitationId = some i) ∧
    ∀ q t u, Prog.Makes (ReflTransGen (service cfg).env) ((service cfg).exec q)
      ((service cfg).arrive q w) t u → Provisions t u := by
  have hw : Listed w := hs.invariant (I := Listed) hspares (fun _ _ hr => by cases hr)
    (fun _ _ hv he => hv.of_db (environment_db he))
    fun q s o t hi _ hp hex => listed_of_exec hi hp hex
  refine ⟨fun i r p hr hp q hq => parent_eq_some.1 ((hw i r hr).lists hp q hq), fun q t u hex => ?_⟩
  exact provisions_of_makes hw hex

def companionRun (k : Nat) : List Request :=
  [⟨.createInvitation
      { eventId := some 7, firstName := "A", lastName := "B", maxInvitees := some 2 }
      5, { tenantId := some 1 }⟩,
    ⟨.replyInvitation { invitationId := 0, choice := .yes, replyInput := some {
      firstName := "A", lastName := "B", email := some "a@b.de"
      phoneNumbers := [{ number := "1", type := .mobile, countryCode := "49" }]
      plusOnes := [{ firstName := "C", lastName := "D", plusOneAgeCategory := some .overSix }] } }
      "de-DE", { tenantId := some 1 }⟩,
    ⟨.createPlusOnesInvitation {
      eventId := some 7, invitedByInvitationId := some 0, firstName := "E", lastName := "F"
      plusOneAgeCategory := some .overSix } 5 "de-DE", { tenantId := some 1 }⟩,
    ⟨.removePlusOneInvitation k 5, { tenantId := some 1 }⟩]

theorem listed_plusOnes_kept_second :
    let x := trace plainConfig (companionRun 2) .empty
    (x.2.row 2).isNone = true ∧ (x.2.row 0).any (·.listed = [1]) = true ∧
    (∀ i r p, x.2.row i = some r → r.pendingContactPayload = some p →
      ∀ q ∈ p.plusOnes, ∃ y, x.2.row q.invitationId = some y ∧ y.invitedByInvitationId = some i) ∧
    ∀ q t u, Prog.Makes (ReflTransGen (service plainConfig).env) ((service plainConfig).exec q)
      ((service plainConfig).arrive q x.2) t u → Provisions t u :=
  ⟨by decide, by decide,
    listed_plusOnes_kept (serial_trace (companionRun 2) .empty (by decide)) (by decide)⟩

/-- The contact of a guest still lists the plus-one that was removed. -/
theorem listed_plusOnes_not_kept : ¬ ∀ w, Reachable plainConfig w →
    ∀ i r p, w.row i = some r → r.pendingContactPayload = some p →
      ∀ q ∈ p.plusOnes, ∃ x, w.row q.invitationId = some x ∧ x.invitedByInvitationId = some i := by
  intro hall
  have h := hall _ ⟨_, serial_trace (companionRun 1) .empty (by decide)⟩ 0
  have hrow : ((trace plainConfig (companionRun 1) .empty).2.row 0).any (fun r =>
      r.pendingContactPayload.any fun p => p.plusOnes.any (·.invitationId = 1)) = true := by decide
  have hgone : ((trace plainConfig (companionRun 1) .empty).2.row 1).isNone = true := by decide
  obtain ⟨r, hr, hok⟩ := (Option.any_eq_true _ _).1 hrow
  obtain ⟨p, hp, hok⟩ := (Option.any_eq_true _ _).1 hok
  obtain ⟨q, hq, hid⟩ := List.any_eq_true.1 hok
  obtain ⟨x, hx, -⟩ := h r p hr hp q hq
  rw [of_decide_eq_true hid] at hx
  rw [hx] at hgone
  cases hgone

end InvitationService

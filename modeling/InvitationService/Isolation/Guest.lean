import InvitationService.Isolation.Staff
import InvitationService.Lifecycle.Guest

namespace InvitationService

open Resumption Query

variable {R : World → World → Prop} {E : Scope} {cfg : Config} {ctx : Context} {s t v w : World}
  {i n : Nat} {e : EventId} {r c : Invitation}

structure Stored (E : Scope) (e : EventId) (c : Invitation) (w : World) : Prop where
  scope : E c.id e
  event : c.eventId = e
  row : ∃ r, w.row c.id = some r ∧ r.eventId = e

theorem Stored.belongs (h : Stored E e c s) : Belongs R E c.id e s := ⟨h.scope, .of_now h.row⟩

theorem Stored.of_row {u : World} (h : Stored E e c v) (hrow : u.row = v.row) : Stored E e c u :=
  ⟨h.scope, h.event, hrow ▸ h.row⟩

theorem Stored.patch {d : InvitationUpdate} {now : Nat} (h : Stored E e c w) :
    Stored E e c (w.setInvitations (w.db.invitations.patch i d now)) := by
  obtain ⟨r, hr, he⟩ := h.row
  refine ⟨h.scope, h.event, ?_⟩
  rw [World.setInvitations_row, InvitationTable.patch_row]
  split
  · exact ⟨d.apply now r, congrArg (Option.map _) hr, he⟩
  · exact ⟨r, hr, he⟩

theorem Stored.insert {x : Invitation} {hp : w.db.invitations.ParentExists x.invitedByInvitationId}
    (h : Stored E e c w) : Stored E e c (w.setInvitations (w.db.invitations.insert x hp)) := by
  obtain ⟨r, hr, he⟩ := h.row
  refine ⟨h.scope, h.event, r, ?_, he⟩
  exact (InvitationTable.insert_row_of_lt hp (w.db.invitations.id_lt hr)).trans hr

theorem confines_create_stored (hv : Stays R E w v) (hE : E v.db.invitations.next r.eventId) :
    Confines R E w (createInvitation r) (fun c u => Stored E r.eventId c u ∧
      v.db.invitations.next ≤ c.id ∧ ∀ d, Stored E e d v → Stored E e d u) v :=
  confines_createInvitation hv hE fun h =>
    ⟨⟨hE, rfl, _, InvitationTable.insert_row_next (r := r.stamped v.now) h, rfl⟩, Nat.le_refl _,
      fun _ hd => hd.insert⟩

theorem confines_mapM {β : Type} {g : β → Query Invitation} {xs : List β}
    (h : ∀ x ∈ xs, ∀ v, Stays R E w v → Confines R E w (g x) (fun c u => Stored E e c u ∧
      ∀ d, Stored E e d v → Stored E e d u) v) (hv : Stays R E w v) :
    Confines R E w (xs.mapM' g) (fun cs u => (∀ c ∈ cs, Stored E e c u) ∧
      ∀ d, Stored E e d v → Stored E e d u) v := by
  induction xs generalizing v with
  | nil => exact confines_ok hv ⟨by simp, fun _ hd => hd⟩
  | cons x xs ih =>
    rw [Prog.mapM'_cons]
    refine Confines.bind <| (h x List.mem_cons_self v hv).weaken fun c u ⟨hc, hold⟩ hu => ?_
    refine Confines.bind <| (ih (fun y hy => h y (List.mem_cons_of_mem _ hy)) hu).weaken
      fun cs u' ⟨hcs, hold'⟩ hu' => confines_ok hu' ⟨?_, fun d hd => hold' d (hold d hd)⟩
    exact List.forall_mem_cons.2 ⟨hold' c hc, hcs⟩

theorem confines_update_stored {d : InvitationUpdate} (hv : Stays R E w v)
    (hc : ∀ x, v.row i = some x → E i e ∧ x.eventId = e) :
    Confines R E w (updateInvitation i d) (fun c u => Stored E e c u ∧ c.id = i ∧
      ∀ x, Stored E e x v → Stored E e x u) v :=
  confines_updateInvitation hv (fun x hx => (hc x hx).2 ▸ (hc x hx).1) fun x hx => by
    obtain ⟨hE, he⟩ := hc x hx
    have hid : x.id = i := v.db.invitations.id_eq hx
    have hstored : Stored E e x v := ⟨by rwa [hid], he, x, by rwa [hid], he⟩
    have hpatched : Stored E e x
      (v.setInvitations (v.db.invitations.patch i d v.now)) := hstored.patch
    exact ⟨⟨hpatched.scope, he, hpatched.row⟩, hid, fun _ hy => hy.patch⟩

theorem confines_attachPendingContact {payload : PendingUser} (hv : Stays R E w v)
    (hc : Stored E e c v) (hi : c.id = i) :
    Confines R E w (GuestWrite.attachPendingContact i payload) (fun c u => Stored E e c u ∧
      c.id = i ∧ ∀ x, Stored E e x v → Stored E e x u) v := by
  subst hi
  refine Confines.bind <| confines_call hv (hv.cache payload) fun token _ hu => ?_
  refine (confines_update_stored hu fun x hx => ?_).weaken fun x u hx =>
    ⟨hx.1, hx.2.1, fun y hy => hx.2.2 y ⟨hy.scope, hy.event, hy.row⟩⟩
  obtain ⟨y, hy, he⟩ := hc.row
  have hxy : v.row c.id = some x := hx
  obtain rfl := Option.some.inj (hy.symm.trans hxy)
  exact ⟨hc.scope, he⟩

theorem within_updateInvitation (hR : Follows R) {d : InvitationUpdate} (h : Belongs R E i e s) :
    (perform (updateInvitation i d)).Within R (Stays R E)
      (fun x u => Carries R s u ∧ x.id = i ∧ x.eventId = e) s := by
  refine within_stays hR fun t hst => ?_
  have hrefl : Stays R E t t := .refl t
  refine post_update (fun _ => ⟨hrefl, by simp⟩) fun r hr => ⟨hrefl.table (h.patch hR hst _ _),
    fun x hx hu => ?_⟩
  obtain rfl := Except.ok.inj hx
  exact ⟨hu, (t.db.invitations.id_eq hr : r.id = i), (h.row hR hst hr : r.eventId = e)⟩

namespace GuestWrite

theorem confines_enqueueReply {updated : Invitation} {isUpdate : Bool} {choice : RsvpChoice}
    {count : Nat} (hv : Stays R E w v) (hF : Seen R (World.Has E fun r => r.id = updated.id) w) :
    Confines R E w (enqueueReply ctx updated isUpdate choice count)
      (fun _ u => u.row = v.row) v := by
  refine Confines.bind <| confines_enqueue hv (.inl hF) fun x hu => ?_
  split
  · exact confines_enqueue hu (.inl hF) fun _ => rfl
  · exact confines_ok hu rfl

theorem confines_replyTransaction {input : RSVPInput} {plan : ReplyPlan} {now : Nat}
    {locale : Locale}
    (hR : Follows R) (h : Belongs R E input.invitationId r.eventId s)
    (hnew : ∀ j, n ≤ j → E j r.eventId) (hn : Known R (fun v => n ≤ v.db.invitations.next) s)
    (hst : R s t) : Confines R E t (replyTransaction cfg ctx r plan now input locale)
      (fun x u => ∀ c ∈ x.1 :: x.2, Stored E r.eventId c u) t := by
  have hnext : ∀ {v}, Stays R E t v → n ≤ v.db.invitations.next := fun hv =>
    (hR.next_le hn hst).trans hv.invitations.next
  have hF := h.has_id hst
  unfold replyTransaction
  refine Confines.bind <| (confines_update_stored (.refl t) fun x hx =>
    ⟨h.1, h.row hR hst hx⟩).weaken fun updated u ⟨hupdated, hid, _⟩ hu => ?_
  refine Confines.bind <| (confines_mapM (e := r.eventId) (fun p _ v hv => ?_) hu).weaken
    fun created v ⟨hcreated, hold⟩ hv => ?_
  · exact (confines_create_stored (r := replyPlusOne cfg r now _ p) hv
      (hnew _ (hnext hv))).weaken fun _ _ hc => ⟨hc.1, hc.2.2⟩
  · have hdone : ∀ v, (Stored E r.eventId updated v ∧ ∀ c ∈ created, Stored E r.eventId c v) →
        Stays R E t v → Confines R E t (do
          enqueueReply ctx updated r.rsvpChoice.isSome plan.decision.newChoice created.length
          return (updated, created)) (fun x u => ∀ c ∈ x.1 :: x.2, Stored E r.eventId c u) v :=
      fun v ⟨hx, hxs⟩ hv => by
        refine Confines.bind <| (confines_enqueueReply hv (hid ▸ hF)).weaken fun _ u hrow hu =>
          confines_ok hu (List.forall_mem_cons.2 ⟨hx.of_row hrow, fun c hc =>
            (hxs c hc).of_row hrow⟩)
    dsimp only
    split
    · split
      · exact confines_error hv
      · refine Confines.bind <| confines_look (Block.moves_observe fun _ => rfl) hv <|
          ends_clock.2 fun _ => ?_
        refine Confines.bind <| (confines_attachPendingContact hv (hold _ hupdated) hid).weaken
          fun _ u ⟨_, _, hkeep⟩ hu => ?_
        exact hdone u ⟨hkeep _ (hold _ hupdated), fun c hc => hkeep c (hcreated c hc)⟩ hu
    · exact hdone v ⟨hold _ hupdated, hcreated⟩ hv

theorem publishSeatingInfo_isolated (hR : Follows R) {rs : List Invitation}
    {selectedInvitedBy : List String} (h : ∀ c ∈ rs, Belongs R E c.id e s) :
    Isolated R E (rs.forM fun c =>
      perform (publishSeatingInfoUpdated cfg ctx e c selectedInvitedBy)) s :=
  isolated_forM fun c hc _ ht => isolated_send hR fun _ hu => ((h c hc).carry ht).has hu

theorem reply_isolated (hR : Follows R) {input : RSVPInput} {locale : Locale}
    (hi : ∀ e, E input.invitationId e)
    (hnew : ∀ t r j, R s t → t.row input.invitationId = some r → n ≤ j → E j r.eventId)
    (hn : Known R (fun v => n ≤ v.db.invitations.next) s) :
    Isolated R E (reply cfg ctx input locale) s := by
  unfold reply
  simp only [liftM_eq]
  refine Prog.Within.bind <| within_look hR looks_ensureExists fun t hst ht =>
    ends_ensureExists.2 fun r hr _ => ?_
  have h : Belongs R E input.invitationId r.eventId t := .of_row hr (hi _)
  refine Prog.Within.weaken ?_ fun _ _ hu => ht.trans hu
  refine (isolated_look hR (Block.looks_call fun _ => rfl)).seq fun settings u hu => ?_
  refine Isolated.seq isolated_ret fun plan v hv => ?_
  refine (isolated_look hR (Block.moves_observe fun _ => rfl)).seq fun now w hw => ?_
  have hw : Carries R t w := (hu.trans hv).trans hw
  refine Prog.Within.bind <| (within_confines hR fun x hx =>
    (confines_replyTransaction hR (h.carry hw) (fun j => hnew t r j hst hr) (hw _ (ht _ hn))
      hx).weaken fun y z hstored hc => (⟨hc, hstored⟩ : Carries R w z ∧
        ∀ c ∈ y.1 :: y.2, Stored E r.eventId c z)).weaken fun y z ⟨hz, hstored⟩ => ?_
  refine Prog.Within.weaken (Isolated.seq (publishSeatingInfo_isolated hR fun c hc =>
    (hstored c hc).belongs) fun _ x _ => ?_) fun _ _ hy => hz.trans hy
  refine .ite ?_ isolated_ret
  split
  · exact isolated_ret
  · exact (AdminWrite.approve_isolated hR fun e _ => hi e).seq fun _ _ _ => isolated_ret

theorem confines_createPublicPlusOne {input : PublicRsvpInput} {inviteeId : Nat}
    {selectedInvitedBy : List String} {p : PublicPlusOneInput} (hv : Stays R E w v)
    (hE : ∀ j, w.db.invitations.next ≤ j → E j input.eventId) :
    Confines R E w (createPublicPlusOne cfg ctx input inviteeId selectedInvitedBy p)
      (fun c u => Stored E input.eventId c u ∧
        ∀ d, Stored E input.eventId d v → Stored E input.eventId d u) v := by
  refine Confines.bind <| confines_look (Block.moves_observe fun _ => rfl) hv <|
    ends_clock.2 fun _ => ?_
  refine Confines.bind <| (confines_create_stored (e := input.eventId)
    (r := publicPlusOne cfg input inviteeId selectedInvitedBy v.now p) hv
    (hE _ hv.invitations.next)).weaken fun c u ⟨hc, hnext, hold⟩ hu => ?_
  have hnew : w.db.invitations.next ≤ c.id := hv.invitations.next.trans hnext
  refine Confines.bind <| confines_enqueue hu (.inr ⟨hnew, _, hE _ hnew⟩) fun x hu => ?_
  exact Confines.bind <| confines_enqueue hu (.inr ⟨hnew, _, hE _ hnew⟩) fun y hu =>
    confines_ok hu ⟨hc.of_row rfl, fun d hd => (hold d hd).of_row rfl⟩

theorem confines_publicRsvpTransaction {input : PublicRsvpInput} {settings : Option EventSettings}
    {selectedInvitedBy : List String} {guestNote : Option String}
    (hE : ∀ j, w.db.invitations.next ≤ j → E j input.eventId) :
    Confines R E w (publicRsvpTransaction cfg ctx input settings selectedInvitedBy guestNote)
      (fun x u => ∀ c ∈ x.1 :: x.2, Stored E input.eventId c u) w := by
  refine Confines.bind <| confines_look (Block.moves_observe fun _ => rfl) (.refl w) <|
    ends_clock.2 fun _ => ?_
  refine Confines.bind <| (confines_create_stored (e := input.eventId)
    (r := publicInvitee cfg input settings selectedInvitedBy guestNote w.now) (.refl w)
    (hE _ (Nat.le_refl _))).weaken fun c u ⟨hc, hnew, _⟩ hu => ?_
  refine Confines.bind <| (confines_mapM (fun p _ v hv => confines_createPublicPlusOne hv hE)
    hu).weaken fun cs v ⟨hcs, hold⟩ hv => ?_
  have hfact : Seen R (World.Has E fun r => r.id = c.id) w ∨
      w.db.invitations.next ≤ c.id ∧ ∃ e, E c.id e := .inr ⟨hnew, _, hE _ hnew⟩
  refine Confines.bind <| confines_enqueue hv hfact fun x hv => ?_
  refine Confines.bind <| confines_enqueue hv hfact fun y hv => ?_
  refine Confines.bind <| confines_enqueue hv hfact fun z hv => confines_ok hv ?_
  exact List.forall_mem_cons.2 ⟨(hold c hc).of_row rfl, fun d hd => (hcs d hd).of_row rfl⟩

theorem createFromPublicRsvp_isolated (hR : Follows R) {input : PublicRsvpInput} {locale : Locale}
    (hE : ∀ j, n ≤ j → E j input.eventId) (hn : Known R (fun v => n ≤ v.db.invitations.next) s) :
    Isolated R E (createFromPublicRsvp cfg ctx input locale) s := by
  unfold createFromPublicRsvp
  simp only [liftM_eq]
  refine .ite isolated_ret ?_
  refine Isolated.seq isolated_ret fun _ t ht => ?_
  refine (isolated_look hR (Block.looks_call fun _ => rfl)).seq fun settings u hu => ?_
  refine Prog.Within.bind <| (within_confines hR fun x hx =>
    (confines_publicRsvpTransaction fun j hj =>
      hE j ((hR.next_le (hu _ (ht _ hn)) hx).trans hj)).weaken fun y z hstored hc =>
        (⟨hc, hstored⟩ : Carries R u z ∧
          ∀ c ∈ y.1 :: y.2, Stored E input.eventId c z)).weaken fun y z ⟨hz, hstored⟩ => ?_
  obtain ⟨hfirst, hrest⟩ := List.forall_mem_cons.1 hstored
  refine Prog.Within.weaken ?_ fun _ _ hy => hz.trans hy
  refine (isolated_look hR (Block.moves_observe fun _ => rfl)).seq fun now a ha => ?_
  refine (isolated_cacheSet hR).seq fun token b hb => ?_
  have hbelongs : Belongs R E y.1.id input.eventId b := (hfirst.belongs.carry ha).carry hb
  refine Prog.Within.bind <| (within_updateInvitation hR hbelongs).weaken
    fun updated c ⟨hc, hid, he⟩ => ?_
  refine Prog.Within.weaken ?_ fun _ _ hy => hc.trans hy
  have hbelongs : Belongs R E updated.id input.eventId c := hid ▸ hbelongs.carry hc
  refine Isolated.seq (isolated_send hR fun x hx => ?_) fun _ d hd => ?_
  · rw [he]
    exact hbelongs.has hx
  · refine Isolated.seq (publishSeatingInfo_isolated hR <| List.forall_mem_cons.2
      ⟨hbelongs.carry hd, fun x hx => ?_⟩) fun _ x _ => ?_
    · exact (hrest x hx).belongs.carry (((ha.trans hb).trans hc).trans hd)
    · refine .ite (AdminWrite.approve_isolated hR fun e' he' => ?_) isolated_ret
      obtain rfl := Option.some.inj he'
      exact hbelongs.1

theorem confines_createPlusOneTransaction {input : CreatePlusOneInput} {parentId : Nat}
    {actorId : UserId} {locale : Locale} (hp : E parentId e)
    (hE : ∀ j, w.db.invitations.next ≤ j → E j e) :
    Confines R E w (createPlusOneTransaction cfg ctx input e parentId actorId locale)
      (fun x u => Stored E e x.1 u) w := by
  have hrefl : Stays R E w w := .refl w
  unfold createPlusOneTransaction
  refine Confines.bind <| confines_look looks_ensureExists hrefl <|
    ends_ensureExists.2 fun parent hparent _ => ?_
  dsimp only
  split
  · exact confines_error hrefl
  · rename_i hevent
    have hevent : parent.eventId = e := not_not.1 hevent
    refine Confines.bind <| confines_reads looks_ensureUserCanManage hrefl fun staffManaged _ => ?_
    split
    · exact confines_error hrefl
    · refine Confines.bind <| Confines.weaken (K := fun count u => Stays R E w u) ?_
        fun count u hu _ => ?_
      · refine confines_updateManyInvitations hrefl (fun x hx => ?_) hrefl fun _ => ?_
        · obtain rfl := Option.some.inj (hparent.symm.trans hx)
          rwa [hevent]
        · refine hrefl.table (.patch fun x hx => ?_)
          obtain rfl := Option.some.inj (hparent.symm.trans hx)
          rwa [hevent]
      · split
        · exact confines_error hu
        · refine Confines.bind <| confines_reads (Block.looks_call fun _ => rfl) hu
            fun settings _ => ?_
          refine Confines.bind <| confines_reads (Block.moves_observe fun _ => rfl) hu
            fun now _ => ?_
          refine Confines.bind <| (confines_create_stored (e := e)
            (r := plusOneChild cfg input e parentId actorId _ now) hu
            (hE _ hu.invitations.next)).weaken fun c v ⟨hc, hnext, _⟩ hv => ?_
          have hnew : w.db.invitations.next ≤ c.id := hu.invitations.next.trans hnext
          refine Confines.bind <| confines_reads (Block.moves_observe fun _ => rfl) hv
            fun endsAt _ => ?_
          refine Confines.bind <| (confines_attachPendingContact hv hc rfl).weaken
            fun d x ⟨hd, hid, _⟩ hx => ?_
          refine Confines.bind <| confines_enqueue hx (.inr ⟨?_, e, hd.scope⟩) fun y hy =>
            confines_ok hy (hd.of_row rfl)
          exact hnew.trans hid.ge

theorem createPlusOne_isolated (hR : Follows R) {input : CreatePlusOneInput} {actorId : UserId}
    {locale : Locale} (hE : ∀ e p, createPlusOneIds input = .ok (e, p) → E p e ∧ ∀ j, n ≤ j → E j e)
    (hn : Known R (fun v => n ≤ v.db.invitations.next) s) :
    Isolated R E (createPlusOne cfg ctx input actorId locale) s := by
  unfold createPlusOne
  simp only [liftM_eq]
  cases hids : createPlusOneIds input with
  | error x => exact isolated_ret
  | ok ids =>
    obtain ⟨e, p⟩ := ids
    obtain ⟨hp, hnew⟩ := hE e p hids
    rw [Prog.ok_bind]
    refine Isolated.seq isolated_ret fun _ t ht => ?_
    refine Prog.Within.bind <| (within_confines hR fun u hu =>
      (confines_createPlusOneTransaction hp fun j hj =>
        hnew j ((hR.next_le (ht _ hn) hu).trans hj)).weaken fun x v hx hc =>
          (⟨hc, hx⟩ : Carries R t v ∧ Stored E e x.1 v)).weaken fun x v ⟨hv, hx⟩ => ?_
    refine Prog.Within.weaken ?_ fun _ _ hy => hv.trans hy
    refine Isolated.seq (isolated_send hR fun a ha => ?_) fun _ a _ => ?_
    · rw [hx.event]
      exact hx.belongs.has ha
    · refine .ite (AdminWrite.approve_isolated hR fun e' he' => ?_) isolated_ret
      obtain rfl := Option.some.inj he'
      exact hx.scope

theorem updatePlusOne_isolated (hR : Follows R) {input : UpdatePlusOneInput} {userId : UserId}
    (hE : ∀ i e, input.id = some i → E i e) : Isolated R E (updatePlusOne cfg input userId) s := by
  unfold updatePlusOne
  split
  · exact isolated_ret
  · rename_i id hid
    refine Isolated.seq isolated_ret fun _ t ht => within_confines hR fun u _ => ?_
    have hrefl : Stays R E u u := .refl u
    refine Confines.bind <| confines_look looks_ensureExists hrefl <|
      ends_ensureExists.2 fun existing hexisting _ => ?_
    refine Confines.bind <| confines_reads (Prog.looks_ret _) hrefl fun parentId _ => ?_
    refine Confines.bind <| confines_reads looks_ensureUserCanManage hrefl fun _ _ => ?_
    rw [show existing.id = id from u.db.invitations.id_eq hexisting]
    exact confines_updateInvitation hrefl (fun _ _ => hE id _ hid) fun _ _ hc => hc

theorem Follows.seen_row (hR : Follows R) (hst : R s t) (hr : t.row i = some r) (hE : E i r.eventId)
    {P : Invitation → Prop} (hP : P r) : Seen R (World.Has E P) t := by
  have hid : r.id = i := t.db.invitations.id_eq hr
  exact ⟨t, ⟨r, by rwa [hid], by rwa [hid], hP⟩, hR.now hst⟩

theorem confines_dropPendingContact (hv : Stays R E w v)
    (hF : ∀ token, r.pendingContactId = some token →
      Seen R (World.Has E fun x => x.pendingContactId = some token) w) :
    Confines R E w (dropPendingContact r) (fun _ u => u.row = v.row) v := by
  unfold dropPendingContact
  split
  · rename_i token htoken
    exact confines_call hv (hv.drop (hF token htoken)) fun _ _ => rfl
  · exact confines_ok hv rfl

theorem confines_publishGuestDeleted {actorId : UserId} (hv : Stays R E w v)
    (hF : ∀ guest, r.guestProfileId = some guest →
      Seen R (World.Has E fun x => x.guestProfileId = some guest) w) :
    Confines R E w (publishGuestDeleted cfg ctx r actorId) (fun _ _ => True) v := by
  unfold publishGuestDeleted
  split
  · rename_i guest hguest
    exact confines_call hv (hv.log (hF guest hguest)) fun _ _ => trivial
  · exact confines_ok hv trivial

theorem deletePlusOne_isolated (hR : Follows R) {actorId : UserId} (hi : ∀ e, E i e)
    (hp : ∀ t p e, R s t → t.db.invitations.parent i = some p → E p e) :
    Isolated R E (deletePlusOne cfg ctx i actorId) s := by
  refine within_confines hR fun t hst => ?_
  have hrefl : Stays R E t t := .refl t
  refine Confines.bind <| confines_look looks_ensureExists hrefl <|
    ends_ensureExists.2 fun child hchild _ => ?_
  cases hpar : parentOfPlusOne child with
  | error x => exact confines_error hrefl
  | ok p =>
    have hE : ∀ e, E p e := fun e =>
      hp t p e hst (InvitationTable.parent_eq_some.2 ⟨child, hchild, parentOfPlusOne_ok hpar⟩)
    have hseen : ∀ {P : Invitation → Prop}, P child → Seen R (World.Has E P) t :=
      fun hP => Follows.seen_row hR hst hchild (hi _) hP
    rw [Prog.ok_bind]
    refine Confines.bind <| confines_reads looks_ensureUserCanManage hrefl fun _ _ => ?_
    refine Confines.bind <| (confines_dropPendingContact hrefl fun _ h => hseen h).weaken
      fun _ u _ hu => ?_
    refine Confines.bind <| confines_deleteInvitation hu (fun _ _ => hi _) fun _ _ hv => ?_
    refine Confines.bind <| confines_updateInvitation hv (fun _ _ => hE _) fun _ _ hx => ?_
    exact Confines.bind <| (confines_publishGuestDeleted hx fun _ h => hseen h).weaken
      fun _ _ _ hy => confines_ok hy fun hc => hc

theorem confines_deleteChildren {rs : List Invitation} (hv : Stays R E w v)
    (hrs : ∀ r ∈ rs, w.row r.id = some r ∧ E r.id r.eventId ∧
      ∀ P : Invitation → Prop, P r → Seen R (World.Has E P) w) :
    Confines R E w (rs.mapM' deleteChild) (fun _ _ => True) v := by
  induction rs generalizing v with
  | nil => exact confines_ok hv trivial
  | cons r rs ih =>
    obtain ⟨hr, hE, hseen⟩ := hrs r List.mem_cons_self
    rw [Prog.mapM'_cons]
    refine Confines.bind <| Confines.bind <| (confines_dropPendingContact hv fun _ h =>
      hseen _ h).weaken fun _ u _ hu => confines_deleteInvitation hu (fun x hx =>
        ?_) fun _ _ hu => ?_
    · rcases hu.invitations.row _ _ hx with hx | ⟨hE, -⟩
      · obtain rfl := Option.some.inj (hr.symm.trans hx)
        exact hE
      · exact hE
    · exact Confines.bind <| (ih hu fun x hx => hrs x (List.mem_cons_of_mem _ hx)).weaken
        fun _ _ _ hx => confines_ok hx trivial

theorem deleteAllPlusOnes_isolated (hR : Follows R) {actorId : UserId} (hi : ∀ e, E i e)
    (hchild : ∀ t j e, R s t → t.db.invitations.parent j = some i → E j e) :
    Isolated R E (deleteAllPlusOnes cfg ctx i actorId) s := by
  refine within_confines hR fun t hst => ?_
  have hrefl : Stays R E t t := .refl t
  refine Confines.bind <| confines_look looks_ensureExists hrefl <|
    ends_ensureExists.2 fun parent _ _ => ?_
  refine Confines.bind <| confines_reads looks_ensureUserCanManage hrefl fun _ _ => ?_
  refine Confines.bind <| confines_look (Block.looks_call fun _ => rfl) hrefl <|
    ends_findManyInvitations.2 fun _ => ?_
  have hrs : ∀ r ∈ t.db.invitations.select fun r => r.invitedByInvitationId = some i &&
      r.eventId = parent.eventId, t.row r.id = some r ∧ E r.id r.eventId ∧
        ∀ P : Invitation → Prop, P r → Seen R (World.Has E P) t := fun r hr => by
    obtain ⟨hrow, hq⟩ := InvitationTable.mem_select.1 hr
    have hpar : r.invitedByInvitationId = some i := by simp_all
    have hE := hchild t r.id r.eventId hst (InvitationTable.parent_eq_some.2 ⟨r, hrow, hpar⟩)
    exact ⟨hrow, hE, fun P hP => Follows.seen_row hR hst hrow hE hP⟩
  refine Confines.bind <| (confines_deleteChildren hrefl hrs).weaken fun rows u _ hu => ?_
  refine Confines.bind <| confines_updateInvitation hu (fun _ _ => hi _) fun _ _ hv => ?_
  dsimp only
  split
  · refine Confines.bind <| confines_call hv (hv.log fun guest hguest => ?_) fun _ _ hw =>
      confines_ok hw fun hc => hc
    obtain ⟨r, hr, hg⟩ := List.mem_filterMap.1 hguest
    exact (hrs r hr).2.2 _ hg
  · exact confines_ok hv fun hc => hc

end GuestWrite
end InvitationService

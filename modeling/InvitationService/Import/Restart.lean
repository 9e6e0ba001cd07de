import InvitationService.Import.Duplicates
import InvitationService.Isolation.Footprint
import InvitationService.Lib.Amid

open Relation (ReflTransGen)

namespace InvitationService

open Resumption Query FirstSeen

/-! An import that was interrupted and is tried again. -/

namespace InvitationTable

variable {t u : InvitationTable} {q : Invitation → Bool}

theorem select_eq (t : InvitationTable) (q : Invitation → Bool) :
    t.select q = (List.range t.next).filterMap fun i => (t.row i).filter q := by
  rw [select, List.filter_filterMap]

theorem select_congr (hn : t.next ≤ u.next)
    (h : ∀ i r, q r = true → (t.row i = some r ↔ u.row i = some r)) : t.select q = u.select q := by
  have hrow : (fun i => (t.row i).filter q) = fun i => (u.row i).filter q := by
    funext i
    apply Option.ext
    intro r
    simp only [Option.filter_eq_some_iff]
    exact and_congr_left fun hq => h i r hq
  have hnew : ∀ k, (u.row (t.next + k)).filter q = none := by
    intro k
    rw [← congrFun hrow]
    cases hr : t.row (t.next + k) with
    | none => rfl
    | some r => exact absurd (t.id_lt hr) (by omega)
  obtain ⟨k, hk⟩ := Nat.exists_eq_add_of_le hn
  rw [select_eq, select_eq, hrow, hk, List.range_add, List.filterMap_append]
  simp [List.filterMap_map, hnew]

theorem select_insert {r : Invitation} (h : t.ParentExists r.invitedByInvitationId) :
    (t.insert r h).select q =
      t.select q ++ if q (r.withId t.next) = true then [r.withId t.next] else [] := by
  have hold : (List.range t.next).filterMap (fun i => ((t.insert r h).row i).filter q) =
      (List.range t.next).filterMap fun i => (t.row i).filter q :=
    List.filterMap_congr fun i hi => by rw [insert_row_of_lt h (List.mem_range.1 hi)]
  have hnext : (t.insert r h).next = t.next + 1 := rfl
  rw [select_eq, select_eq, hnext, List.range_succ, List.filterMap_append, hold]
  by_cases hq : q (r.withId t.next) = true
  · simp [Option.filter_some, hq]
  · simp [hq]

end InvitationTable

section

variable {e : EventId} {s t u : World}

/-- The invitations of event `e` are plus-ones of no other event's. -/
def World.Secluded (e : EventId) (w : World) : Prop :=
  ∀ i r p, w.row i = some r → r.eventId = e → r.invitedByInvitationId = some p →
    ∃ x, w.row p = some x ∧ x.eventId = e

def Elsewhere (e : EventId) (s t : World) : Prop :=
  s.Secluded e → t.Secluded e ∧ AdminWrite.takenPairs e t = AdminWrite.takenPairs e s

theorem Elsewhere.refl (s : World) : Elsewhere e s s := fun hs => ⟨hs, rfl⟩

theorem Elsewhere.trans (h : Elsewhere e s t) (k : Elsewhere e t u) : Elsewhere e s u := fun hs =>
  ⟨(k (h hs).1).1, (k (h hs).1).2.trans (h hs).2⟩

theorem Elsewhere.of_invitations (h : t.db.invitations = s.db.invitations) : Elsewhere e s t := by
  intro hs
  constructor
  · intro i r p hr
    simp only [World.row, h] at hr ⊢
    exact hs i r p hr
  · simp only [AdminWrite.takenPairs, h]

theorem World.Secluded.not_below {E : Scope} (hs : s.Secluded e) (hE : ∀ i, ¬ E i e) {i : Nat}
    (hi : s.db.invitations.Below E i) : ∀ r, s.row i = some r → r.eventId ≠ e := by
  induction hi with
  | @root i x hx hEx =>
    intro r hr he
    obtain rfl := Option.some.inj (hx.symm.trans hr)
    exact hE i (he ▸ hEx)
  | @plusOne i p hp _ ih =>
    intro r hr he
    obtain ⟨y, hy, hyp⟩ := InvitationTable.parent_eq_some.1 hp
    obtain rfl := Option.some.inj (hy.symm.trans hr)
    obtain ⟨x, hx, hxe⟩ := hs i y p hr he hyp
    exact ih x hx hxe

theorem Elsewhere.of_spares {E : Scope} (h : s.db.invitations.Spares E t.db.invitations)
    (hE : ∀ i, ¬ E i e) : Elsewhere e s t := by
  intro hs
  have hback : ∀ i r, r.eventId = e → t.row i = some r → s.row i = some r := by
    intro i r he hr
    rcases h.row i r hr with hr | ⟨hEr, -⟩
    · exact hr
    · exact absurd (he ▸ hEr) (hE i)
  have hkept : ∀ i r, r.eventId = e → s.row i = some r → t.row i = some r := by
    intro i r he hr
    cases ht : t.row i with
    | none =>
      have hbelow := h.gone i (Option.isSome_of_eq_some hr) ht
      exact absurd he (hs.not_below hE hbelow r hr)
    | some x =>
      rcases h.row i x ht with hx | ⟨hEx, hnew | ⟨y, hy, hye, -⟩⟩
      · exact hx.symm.trans hr
      · exact absurd (s.db.invitations.id_lt hr) (by omega)
      · obtain rfl := Option.some.inj (hr.symm.trans hy)
        exact absurd (he ▸ hye ▸ hEx) (hE i)
  constructor
  · intro i r p hr he hp
    obtain ⟨x, hx, hxe⟩ := hs i r p (hback i r he hr) he hp
    exact ⟨x, hkept p x hxe hx, hxe⟩
  · unfold AdminWrite.takenPairs
    rw [InvitationTable.select_congr h.next fun i r hr =>
      ⟨hkept i r (by simpa using hr), hback i r (by simpa using hr)⟩]

theorem Elsewhere.of_footprint {cfg : Config} {I : World → Prop} {q : Request} {a : World}
    (h : Footprint cfg I q a s t) (hE : ∀ i, ¬ q.call.scope cfg I a i e) : Elsewhere e s t := by
  by_cases hq : q.call.Projects
  · apply Elsewhere.of_invitations
    rw [(h.projections hq).rest]
  · exact .of_spares (h.invitations hq).invitations hE

end

namespace AdminWrite

variable {cfg : Config} {ctx : Context} {e : EventId} {user : UserId} {s t : World}
  {g l : List (String × String)} {J : World → Prop}

def Headed (e : EventId) (g l : List (String × String)) (s : World) : Prop :=
  s.Secluded e ∧ ∃ n ≤ l.length, takenPairs e s = g ++ l.take n

theorem Headed.start (hs : s.Secluded e) (h : takenPairs e s = g) : Headed e g l s :=
  ⟨hs, 0, Nat.zero_le _, by simp [h]⟩

theorem Headed.cons {x : String × String} (h : Headed e (g ++ [x]) l s) :
    Headed e g (x :: l) s := by
  obtain ⟨hs, n, hn, hpairs⟩ := h
  exact ⟨hs, n + 1, Nat.succ_le_succ hn, by simp [hpairs]⟩

theorem Headed.elsewhere (h : Headed e g l s) (hst : Elsewhere e s t) : Headed e g l t := by
  obtain ⟨hs, n, hn, hpairs⟩ := h
  obtain ⟨ht, hsame⟩ := hst hs
  exact ⟨ht, n, hn, hsame.trans hpairs⟩

theorem secluded_insert {r : Invitation} {o : List OutboxRow} (hs : s.Secluded e)
    (he : r.eventId = e)
    (hr : r.invitedByInvitationId = none) (h : s.db.invitations.ParentExists
      r.invitedByInvitationId) :
    ((s.setInvitations (s.db.invitations.insert r h)).addFacts o).Secluded e ∧
      takenPairs e ((s.setInvitations (s.db.invitations.insert r h)).addFacts o) =
        takenPairs e s ++ [(r.firstName, r.lastName)] := by
  constructor
  · intro i x p hx hxe hp
    rw [World.addFacts_row, World.setInvitations_row] at hx ⊢
    have hold : i < s.db.invitations.next := by
      by_contra hlt
      rw [InvitationTable.insert_row] at hx
      split at hx
      · obtain rfl := Option.some.inj hx
        exact absurd (hr.symm.trans hp) (by simp)
      · exact hlt (s.db.invitations.id_lt hx)
    rw [InvitationTable.insert_row_of_lt h hold] at hx
    obtain ⟨y, hy, hye⟩ := hs i x p hx hxe hp
    exact ⟨y, (InvitationTable.insert_row_of_lt h (s.db.invitations.id_lt hy)).trans hy, hye⟩
  · have hnew : decide ((r.withId s.db.invitations.next).eventId = e) = true := decide_eq_true he
    unfold takenPairs
    rw [World.addFacts_invitations, World.setInvitations_invitations, InvitationTable.select_insert,
      if_pos hnew, List.map_append]
    rfl

theorem importRow_amid {firstName lastName : String} {cell : Option Cell} (hs : s.Secluded e)
    (hg : takenPairs e s = g)
    (hJ : ∀ t, t.Secluded e → takenPairs e t = g ∨
      takenPairs e t = g ++ [(firstName, lastName)] → J t) :
    (importRow ctx e user firstName lastName cell).Guarantees (Elsewhere e) (fun _ t => J t)
      (fun r t => t.Secluded e ∧ ((∃ ex, r = .error ex) ∧ takenPairs e t = g ∨
        takenPairs e t = g ++ [(firstName, lastName)])) s := by
  unfold importRow
  refine guarantees_transaction fun t hst => ?_
  obtain ⟨ht, htg⟩ := hst hs
  rw [hg] at htg
  refine Prog.Post.mono (?_ : Prog.Ends _ (fun _ u => u.Secluded e ∧
    takenPairs e u = g ++ [(firstName, lastName)]) t) fun r u hr => ?_
  · split
    · exact Prog.ends_error
    · dsimp only
      split
      · simp only [Prog.ends_bind, ends_createInvitation, ends_enqueue]
        intro h tenant _
        rw [← htg]
        apply secluded_insert ht
        · rfl
        · rfl
      · exact Prog.ends_error
  have hback : (World.rollback t u).Secluded e ∧ takenPairs e (World.rollback t u) = g := ⟨ht, htg⟩
  cases r with
  | ok _ =>
    exact ⟨⟨hJ u hr.1 (.inr hr.2), hr.1, .inr hr.2⟩, hJ _ hback.1 (.inl hback.2), hback.1,
      .inl ⟨⟨_, rfl⟩, hback.2⟩⟩
  | error ex => exact ⟨hJ _ hback.1 (.inl hback.2), hback.1, .inl ⟨⟨_, rfl⟩, hback.2⟩⟩

variable {rows : List MappedRow} {existingSet : List String}

/-- What the rows of a file with new names add to the guests. -/
def additions (existingSet : List String) (rows : List MappedRow) : List (String × String) :=
  (firsts (joined ∘ MappedRow.names) existingSet rows).map MappedRow.names

theorem importRows_amid (hs : s.Secluded e) (hg : takenPairs e s = g)
    (hJ : ∀ t, Headed e g (additions existingSet rows) t → J t) :
    (importRows ctx e user rows existingSet).Guarantees (Elsewhere e) (fun _ t => J t)
      (fun r t => ∀ x, r = .ok x → takenPairs e t = g ++ additions existingSet rows) s := by
  induction rows generalizing existingSet g s with
  | nil => exact fun _ _ => by simp [hg, additions, firsts]
  | cons row rows ih =>
    unfold importRows
    dsimp only
    split
    · rename_i hk
      have hsame : additions existingSet (row :: rows) = additions existingSet rows := by
        unfold additions
        rw [firsts, if_pos (show (joined ∘ MappedRow.names) row ∈ existingSet from hk)]
      rw [hsame] at hJ ⊢
      refine Prog.Guarantees.bind <| (ih hs hg hJ).weaken fun r t hr => ?_
      cases r with
      | ok x => exact fun _ _ => hr x rfl
      | error ex => exact fun _ => by simp
    · rename_i hk
      have hnew : additions existingSet (row :: rows) =
          row.names :: additions (joined row.names :: existingSet) rows := by
        unfold additions
        rw [firsts, if_neg (show ¬ (joined ∘ MappedRow.names) row ∈ existingSet from hk)]
        rfl
      rw [hnew] at hJ ⊢
      have hrow : ∀ t, t.Secluded e → takenPairs e t = g ∨
        takenPairs e t = g ++ [row.names] → J t :=
        fun t ht h => hJ t (h.elim (.start ht) fun h => (Headed.start ht h).cons)
      refine Prog.Guarantees.bind <| (importRow_amid hs hg hrow).weaken fun r t hr => ?_
      obtain ⟨ht, htg⟩ := hr
      cases r with
      | error ex => exact fun _ => by simp
      | ok _ =>
        have htg : takenPairs e t = g ++ [row.names] := by simpa [MappedRow.names] using htg
        have hrest := ih ht htg fun u hu => hJ u hu.cons
        refine Prog.Guarantees.bind <| hrest.weaken fun r u hu => ?_
        cases r with
        | ok x => exact fun _ _ => (hu x rfl).trans (by simp)
        | error ex => exact fun _ => by simp

/-- The rows of an upload that an import is to bring in; none if the file does not validate. -/
def importable (cfg : Config) (uploadType : String) (sheet : Option Sheet) : List MappedRow :=
  match readSheet uploadType sheet with
  | .ret (.ok file) => if validationErrors cfg file = [] then mappedRows cfg file else []
  | _ => []

theorem look_amid {β γ : Type} {b : Query β} {k : β → Program γ} {K : γ → World → Prop}
    (hb : b.Looks) (hs : s.Secluded e) (hg : takenPairs e s = g)
    (h : ∀ t, t.Secluded e → takenPairs e t = g → b.Ends (fun x _ =>
      (k x).Guarantees (Elsewhere e) (fun _ t => Headed e g l t)
        (fun r t => ∀ y, r = .ok y → K y t) t) t) :
    (perform b >>= k).Guarantees (Elsewhere e) (fun _ t => Headed e g l t)
      (fun r t => ∀ y, r = .ok y → K y t) s := by
  refine Prog.Guarantees.bind <| guarantees_perform fun t hst => ?_
  obtain ⟨ht, htg⟩ := hst hs
  rw [hg] at htg
  refine ((hb t).and (h t ht htg)).mono ?_
  rintro r u ⟨rfl, hr⟩
  refine ⟨.start ht htg, ?_⟩
  cases r with
  | ok x => exact hr
  | error ex => exact fun _ => nofun

variable {uploadType : String} {sheet : Option Sheet}

theorem importInvitations_amid (hs : s.Secluded e) (hg : takenPairs e s = g)
    (hl : additions (g.map joined) (importable cfg uploadType sheet) = l) :
    (importInvitations cfg ctx e uploadType sheet user).Guarantees (Elsewhere e)
      (fun _ t => Headed e g l t) (fun r t => ∀ x, r = .ok x → takenPairs e t = g ++ l) s := by
  obtain ⟨o, ho⟩ := readSheet_ret uploadType sheet
  unfold importable at hl
  unfold importInvitations
  rw [ho] at hl ⊢
  simp only [liftM_eq]
  refine look_amid (Block.looks_call fun _ => rfl) hs hg fun t ht htg =>
    Block.ends_call.2 fun _ _ => ?_
  refine look_amid (Prog.looks_ret o) ht htg fun u hu hug => ?_
  cases o with
  | error ex => exact Prog.ends_error
  | ok file =>
    refine Prog.ends_ok.2 (Prog.Guarantees.ite (fun herr => ?_) fun hok => ?_)
    · replace herr : (!(validationErrors cfg file).isEmpty) = true := herr
      have hinvalid : validationErrors cfg file ≠ [] := by simpa using herr
      obtain rfl : l = [] := by simpa [hinvalid, additions, firsts] using hl.symm
      exact fun _ _ => by rw [hug, List.append_nil]
    · replace hok : ¬ (!(validationErrors cfg file).isEmpty) = true := hok
      have hvalid : validationErrors cfg file = [] := by simpa using hok
      dsimp only at hl
      rw [if_pos hvalid] at hl
      refine look_amid (Block.looks_call fun _ => rfl) hu hug fun v hv hvg =>
        ends_findManyInvitations.2 ?_
      have hkeys : (v.db.invitations.select (·.eventId = e)).map
          (fun r => nameKey r.firstName r.lastName) = g.map joined := by
        rw [← hvg, takenPairs, List.map_map]
        rfl
      rw [hkeys]
      refine Prog.Guarantees.bind <| (importRows_amid hv hvg fun t ht => hl ▸ ht).weaken
        fun r w hr => ?_
      cases r with
      | error ex => exact fun _ => by simp
      | ok x => exact fun _ _ => (hr x rfl).trans (congrArg (g ++ ·) hl)

end AdminWrite

section

variable {cfg : Config} {e : EventId} {key uploadType : String} {sheet : Option Sheet}
  {user : UserId}
  {g : List (String × String)} {s t u : World}
  {ts : List (System.Thread (Nat → Bool) World Exception Request)}

open AdminWrite

theorem execute_import_amid {q : Request}
    (hq : q.call = .importInvitations e key uploadType sheet user)
    (hs : s.Secluded e) (hg : takenPairs e s = g) :
    (execute cfg q).Guarantees (Elsewhere e)
      (fun _ t => Headed e g (additions (g.map joined) (importable cfg uploadType sheet)) t)
      (fun r t => r = .ok () →
        takenPairs e t = g ++ additions (g.map joined) (importable cfg uploadType sheet)) s := by
  obtain ⟨c, ctx⟩ := q
  obtain rfl : c = .importInvitations e key uploadType sheet user := hq
  refine Prog.Guarantees.ite (fun _ => nofun) fun _ => Prog.Guarantees.bind ?_
  refine (importInvitations_amid hs hg rfl).weaken fun r t hr => ?_
  cases r with
  | ok x => exact fun _ => hr x rfl
  | error ex => exact nofun

/-- The service runs from `s` to `t`; at most one of its calls is `imp`, and the others are not
about event `e`. -/
structure Attempt (cfg : Config) (e : EventId) (imp : Call) (s t : World)
    (ts : List (System.Thread (Nat → Bool) World Exception Request)) : Prop where
  run : (service cfg).Interleaved s ts t
  single : System.Single (fun q => q.call = imp) (ts.map (·.call))
  aside : ∀ x ∈ ts, x.call.call ≠ imp → ∀ i,
    ¬ x.call.call.scope cfg (fun u => (service cfg).Passed s u ts t) x.start i e

/-- The guests that an import of the file is to add to event `e`. -/
def missing (cfg : Config) (e : EventId) (uploadType : String) (sheet : Option Sheet) (s : World) :
    List (String × String) :=
  additions ((takenPairs e s).map joined) (importable cfg uploadType sheet)

/-- However far an import has got amid calls about other events, and whatever has failed, the guests
it has added are the first ones of those that were missing; all of them, if it has returned. -/
theorem Attempt.headed (h : Attempt cfg e (.importInvitations e key uploadType sheet user) s t ts)
    (hs : s.Secluded e) :
    Headed e (takenPairs e s) (missing cfg e uploadType sheet s) t ∧
    ∀ x ∈ ts, x.call.call = .importInvitations e key uploadType sheet user →
      x.rest = .ret (.ok ()) →
      takenPairs e t = takenPairs e s ++ missing cfg e uploadType sheet s := by
  have hsame : ∀ {v w : World}, w.db = v.db → Elsewhere e v w := fun h => .of_invitations (h ▸ rfl)
  have hamid := h.run.amid (N := Elsewhere e) Elsewhere.refl (fun _ _ _ => Elsewhere.trans)
    (fun v w hvw => hsame (environment_db hvw)) (fun q v => hsame rfl)
    (fun us vs q a v β f k i hE hv hI => .of_footprint (Interleaved.footprint hv hI i) hE)
    (J := Headed e (takenPairs e s) (missing cfg e uploadType sheet s))
    (Q := fun r t => r = .ok () →
      takenPairs e t = takenPairs e s ++ missing cfg e uploadType sheet s)
    (fun q v hq hv => ?_) h.single h.aside fun _ hu => hu
  · obtain ⟨hnone, hsome⟩ := hamid
    constructor
    · by_cases hts : ∀ x ∈ ts, x.call.call ≠ .importInvitations e key uploadType sheet user
      · obtain ⟨ht, hsame⟩ := hnone hts hs
        exact .start ht hsame
      · simp only [ne_eq, not_forall, not_not] at hts
        obtain ⟨x, hx, hcall⟩ := hts
        obtain ⟨u, hu, hut, -⟩ := hsome x hx hcall
        exact hu.elsewhere hut
    · intro x hx hcall hret
      obtain ⟨u, hu, hut, hg⟩ := hsome x hx hcall
      rw [hret] at hg
      exact (hut hu.1).2.trans (hg rfl)
  · obtain ⟨hv, hvg⟩ := ((hv.trans (hsame rfl) : Elsewhere e s ((service cfg).arrive q v))) hs
    exact ⟨.start hv hvg, execute_import_amid hq hv hvg⟩

/-- The import `imp`, tried any number of times: whatever has become of an attempt, the service
starts afresh. -/
abbrev Retried (cfg : Config) (e : EventId) (imp : Call) : World → World → Prop :=
  ReflTransGen fun s t => ∃ ts, Attempt cfg e imp s t ts

def Returned (imp : Call) (ts : List (System.Thread (Nat → Bool) World Exception Request)) : Prop :=
  ∃ x ∈ ts, x.call.call = imp ∧ x.rest = .ret (.ok ())

theorem missing_drop {n : Nat} (h : takenPairs e t = takenPairs e s ++
    (missing cfg e uploadType sheet s).take n) :
    missing cfg e uploadType sheet t = (missing cfg e uploadType sheet s).drop n := by
  unfold missing additions at h ⊢
  rw [← List.map_drop, firsts_drop n]
  intro k
  rw [h, List.map_append, List.mem_append, ← List.map_take, List.map_map]

theorem Retried.headed
    (h : Retried cfg e (.importInvitations e key uploadType sheet user) s t) (hs : s.Secluded e) :
    Headed e (takenPairs e s) (missing cfg e uploadType sheet s) t := by
  induction h with
  | refl => exact .start hs rfl
  | @tail t u _ h ih =>
    obtain ⟨ts, h⟩ := h
    obtain ⟨ht, n, hle, hn⟩ := ih
    obtain ⟨⟨hu, k, hk, hpairs⟩, -⟩ := h.headed ht
    rw [missing_drop hn, List.length_drop] at hk
    refine ⟨hu, n + k, by omega, ?_⟩
    rw [hpairs, missing_drop hn, hn, List.append_assoc, List.take_add]

def threeRows : Sheet :=
  ⟨["vorname", "nachname"], [namesRow "Anna" "Meier", namesRow "Anna" "Meier",
    namesRow "Bert" "Meier"]⟩

def importThree : Request where
  call := .importInvitations 7 "key" "xlsx" (some threeRows) 5
  context := { tenantId := some 1 }

def importedFrom (s : World) (fails : Nat → Nat → Bool) : World :=
  ((execute plainConfig importThree).run fails (s.log (.called importThree.call))).2

theorem attempt_importThree (s : World) (fails : Nat → Nat → Bool) :
    Attempt plainConfig 7 importThree.call s (importedFrom s fails)
      [⟨importThree, s.log (.called importThree.call),
        .ret ((execute plainConfig importThree).run fails
        (s.log (.called importThree.call))).1⟩] where
  run := System.Interleaved.start.run importThree trivial fails
  single := List.pairwise_singleton _ _
  aside _ hx hne := absurd (congrArg (·.call.call) (List.mem_singleton.1 hx)) hne

def interrupted : World := importedFrom World.empty fun n _ => n = 4

def completed : World := importedFrom interrupted fun _ _ => false

end
end InvitationService

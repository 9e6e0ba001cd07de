import InvitationService.Invariants.Capacity
import InvitationService.Lifecycle.Alone

open Relation (ReflTransGen)

namespace InvitationService

open Resumption Query InvitationTable

def CountersOk (t : InvitationTable) : Prop := ∀ i r, t.row i = some r → 0 ≤ r.maxInvitees

namespace CountersOk

variable {t u : InvitationTable} {d : InvitationUpdate} {i now : Nat} {r : Invitation}

theorem patch (h : CountersOk t) (hd : ∀ x, t.row i = some x → 0 ≤ (d.apply now x).maxInvitees) :
    CountersOk (t.patch i d now) := by
  intro j x hx
  by_cases hj : j = i
  · subst hj
    rw [patch_row_self] at hx
    obtain ⟨y, hy, rfl⟩ := Option.map_eq_some_iff.1 hx
    exact hd y hy
  · rw [patch_row_of_ne hj] at hx
    exact h j x hx

theorem patch_of_none (h : CountersOk t) (hd : d.maxInvitees = none) :
    CountersOk (t.patch i d now) := by
  refine h.patch fun x hx => ?_
  have hsame : (d.apply now x).maxInvitees = x.maxInvitees := by
    rw [InvitationUpdate.apply, hd]
    exact Int.add_zero _
  rw [hsame]
  exact h i x hx

theorem raise (h : CountersOk t) {n : Int} (hn : 0 ≤ n) :
    CountersOk (t.patch i (capacityUpdate n) now) :=
  h.patch fun x hx => Int.add_nonneg (h i x hx) hn

theorem lower (h : CountersOk t) (hr : t.row i = some r) (hpos : 0 < r.maxInvitees) :
    CountersOk (t.patch i (capacityUpdate (-1)) now) :=
  h.patch fun x hx => by
    obtain rfl : x = r := Option.some.inj (hx.symm.trans hr)
    exact Int.sub_nonneg_of_le hpos

theorem insert (h : CountersOk t) (hp : t.ParentExists r.invitedByInvitationId)
    (hr : 0 ≤ r.maxInvitees) : CountersOk (t.insert r hp) := by
  intro j x hx
  by_cases hj : j = t.next
  · subst hj
    rw [insert_row_next] at hx
    cases hx
    exact hr
  · rw [insert_row_of_ne hp hj] at hx
    exact h j x hx

theorem insertAll {rs : List Invitation} (h : CountersOk t) (hu : InsertAll t rs u)
    (hrs : ∀ r ∈ rs, 0 ≤ r.maxInvitees) : CountersOk u := by
  induction hu with
  | nil => exact h
  | cons hp _ ih =>
    exact ih (h.insert hp (hrs _ List.mem_cons_self)) fun x hx => hrs x (List.mem_cons_of_mem _ hx)

theorem of_rows (h : CountersOk t) (hu : ∀ j, u.row j = none ∨ u.row j = t.row j) :
    CountersOk u := by
  intro j x hx
  rcases hu j with hj | hj
  · rw [hj] at hx
    cases hx
  · rw [hj] at hx
    exact h j x hx

theorem stageAll {staged : Bool} {rs : List Invitation} (h : CountersOk t)
    (hu : StageAll staged now t rs u) : CountersOk u := by
  induction hu with
  | nil => exact h
  | cons _ ih => exact ih (h.patch_of_none rfl)

end CountersOk

variable {cfg : Config} {c : Call} {ctx : Context} {a s w v : World} {t : InvitationTable}

def Call.Imports : Call → Prop
  | .importInvitations .. => True
  | _ => False

theorem CountersOk.change {o : List OutboxRow} (hch : Change Kept cfg c a w t o) (hc : ¬ c.Imports)
    (h : CountersOk w.db.invitations) : CountersOk t := by
  cases hch with
  | same _ => exact h
  | create hr _ =>
    cases c with
    | createInvitation input user =>
      obtain ⟨e, settings, -, hn, rfl⟩ := hr
      exact h.insert _ hn
    | importInvitations e key uploadType sheet user => exact absurd trivial hc
    | _ => exact hr.elim
  | reply _ _ _ _ _ hins hu _ =>
    have ht := (h.patch_of_none rfl).insertAll hins fun x hx => by
      obtain ⟨p, -, rfl⟩ := List.mem_map.1 hx
      exact Int.le_refl 0
    rcases hu with rfl | ⟨token, payload, -, -, -, rfl⟩
    · exact ht
    · exact ht.patch_of_none rfl
  | plusOne _ _ _ hadm hchild _ _ _ =>
    subst hchild
    exact ((h.lower hadm.row hadm.capacity).insert _ (Int.le_refl 0)).patch_of_none rfl
  | details _ hd => exact h.patch_of_none hd.maxInvitees
  | deleteOne _ _ _ => exact (h.of_rows fun j => remove_row_eq).raise (by decide)
  | deleteAll _ _ _ hrem => exact (h.of_rows fun j => hrem.row_eq).raise (Int.natCast_nonneg _)
  | publicRsvp _ hr hins _ =>
    subst hr
    refine (h.insert _ (Int.natCast_nonneg _)).insertAll hins fun x hx => ?_
    obtain ⟨p, -, rfl⟩ := List.mem_map.1 hx
    exact Int.le_refl 0
  | attach _ _ _ _ _ => exact h.patch_of_none rfl
  | limit _ _ hle => exact h.patch fun x _ => Int.sub_nonneg_of_le hle
  | reject _ _ _ => exact h.patch_of_none rfl
  | link _ => exact h.patch_of_none rfl
  | send _ _ _ _ _ _ => exact h.patch_of_none rfl
  | stage _ _ _ hstage => exact h.stageAll hstage
  | remove _ => exact h.of_rows fun j => remove_row_eq
  | removeMany _ hrem => exact h.of_rows fun j => hrem.row_eq


theorem CountersOk.action (hA : Action Kept cfg c a w v) (hc : ¬ c.Imports)
    (h : CountersOk w.db.invitations) : CountersOk v.db.invitations := by
  cases hA with
  | step _ hch _ _ _ _ => exact h.change hch hc
  | project hp =>
    rw [hp.invitations]
    exact h
  | approve _ _ _ _ => exact h.patch_of_none rfl
  | _ => exact h

namespace AdminWrite

/-- What `Number(row.maxPlusOnes ?? 0)` stores; a number that is no integer, or one that the
column cannot hold, is refused. -/
def counterOf (cell : Option Cell) : Option Int :=
  match cell.map (·.number) with
  | some none => none
  | number => (some ((number.getD none).getD 0)).filter fitsInt

/-- The counters that the insertion loop stores: it skips the names it knows, and ends at a
number it cannot store. -/
def counters : List (CanonicalField → Option Cell) → List String → List Int
  | [], _ => []
  | row :: rows, existingSet =>
    let key := nameKey (cellText (row .firstName)) (cellText (row .lastName))
    if key ∈ existingSet then counters rows existingSet
    else (counterOf (row .maxPlusOnes)).elim [] (· :: counters rows (key :: existingSet))

variable {e : EventId} {user : UserId}

def Idles (s t : World) : Prop := t.db = s.db

theorem Idles.refl (s : World) : Idles s s := Eq.refl s.db

theorem Idles.trans (s t u : World) (h : Idles s t) (k : Idles t u) : Idles s u := Eq.trans k h

theorem Idles.counted {t : World} (h : Idles s t) (hs : CountersOk s.db.invitations) :
    CountersOk t.db.invitations := by
  have hdb : t.db = s.db := h
  rwa [hdb]

theorem importRow_counted {firstName lastName : String} {cell : Option Cell} {s : World}
    (h : CountersOk s.db.invitations)
    (hn : ctx.tenantId.isSome = true → ∀ n, counterOf cell = some n → 0 ≤ n) :
    (importRow ctx e user firstName lastName cell).Guarantees Idles (fun _ _ => True)
      (fun o v => CountersOk v.db.invitations ∧
        (o = .ok () → ctx.tenantId.isSome = true ∧ (counterOf cell).isSome = true)) s := by
  unfold importRow
  refine guarantees_transaction_of_ends (fun u hu => ?_) fun u v er hu => ⟨?_, nofun⟩
  · have hu : u.db = s.db := hu
    split
    · trivial
    · rename_i number hnum
      dsimp only
      split
      · rename_i hfits
        have hcell : counterOf cell = some (((cell.map (·.number)).getD none).getD 0) := by
          unfold counterOf
          split
          · exact absurd ‹_› hnum
          · rw [Option.filter_some, if_pos hfits]
        simp only [Prog.ends_bind, ends_createInvitation, ends_enqueue]
        intro hp tenant htenant
        have htenant : ctx.tenantId.isSome = true := htenant ▸ rfl
        have hu : CountersOk u.db.invitations := hu ▸ h
        refine ⟨?_, fun _ => ⟨htenant, by rw [hcell]; rfl⟩⟩
        rw [World.addFacts_invitations, World.setInvitations_invitations]
        exact hu.insert _ (hn htenant _ hcell)
      · trivial
  · have hu : u.db = s.db := hu
    exact hu ▸ h

theorem importRows_counted {rows : List (CanonicalField → Option Cell)}
    {existingSet : List String} {s : World} (h : CountersOk s.db.invitations)
    (hn : ctx.tenantId.isSome = true → ∀ n ∈ counters rows existingSet, 0 ≤ n) :
    (importRows ctx e user rows existingSet).Guarantees Idles (fun _ _ => True)
      (fun _ v => CountersOk v.db.invitations) s := by
  induction rows generalizing existingSet s with
  | nil => exact h
  | cons row rows ih =>
    unfold importRows
    unfold counters at hn
    dsimp only at hn ⊢
    split
    · rename_i hk
      rw [if_pos hk] at hn
      exact Prog.Guarantees.bind <| (ih h hn).weaken fun o v hv => by cases o <;> exact hv
    · rename_i hk
      rw [if_neg hk] at hn
      refine Prog.Guarantees.bind <| (importRow_counted h fun ht n hc => ?_).weaken fun o v hv => ?_
      · rw [hc] at hn
        exact hn ht n List.mem_cons_self
      · obtain ⟨hv, hok⟩ := hv
        cases o with
        | error er => exact hv
        | ok x =>
          obtain ⟨-, hcell⟩ := hok rfl
          obtain ⟨n, hcell⟩ := Option.isSome_iff_exists.1 hcell
          rw [hcell] at hn
          refine Prog.Guarantees.bind <| (ih hv fun ht m hm =>
            hn ht m (List.mem_cons_of_mem _ hm)).weaken fun o v hv => by cases o <;> exact hv

def acceptedRows (cfg : Config) (file : Sheet) : List (CanonicalField → Option Cell) :=
  let rows := file.rawRows.map (applyMapping (mapColumns cfg file.headers))
  if (rows.zipIdx.map fun (row, i) => rowErrors i row).flatten.isEmpty then rows else []

def takenNames (e : EventId) (w : World) : List String :=
  (w.db.invitations.select (·.eventId = e)).map fun r => nameKey r.firstName r.lastName

theorem readSheet_ret (uploadType : String) (sheet : Option Sheet) :
    ∃ o, readSheet uploadType sheet = .ret o := by
  unfold readSheet
  split
  · exact ⟨_, rfl⟩
  · split
    · split <;> exact ⟨_, rfl⟩
    · exact ⟨_, rfl⟩

theorem importInvitations_counted {uploadType : String} {sheet : Option Sheet}
    (h : CountersOk s.db.invitations)
    (hn : ctx.tenantId.isSome = true → ∀ file,
      ((readSheet uploadType sheet).solo false s).1 = .ok file →
        ∀ n ∈ counters (acceptedRows cfg file) (takenNames e s), 0 ≤ n) :
    (importInvitations cfg ctx e uploadType sheet user).Guarantees Idles (fun _ _ => True)
      (fun _ v => CountersOk v.db.invitations) s := by
  obtain ⟨o, ho⟩ := readSheet_ret uploadType sheet
  rw [ho] at hn
  unfold importInvitations
  simp only [liftM_eq, ho]
  refine guarantees_perform_bind Idles.trans (fun _ _ hu => hu)
    (Block.moves_call Idles.refl Idles.refl) rfl (fun _ _ hu => hu.counted h)
    fun t _ => (Prog.ends_true _).mono fun _ u _ hu => ?_
  refine guarantees_perform_bind Idles.trans (fun _ _ hu => hu)
    (Prog.moves_ret Idles.refl _) hu (fun _ _ hu => hu.counted h) fun t _ => ?_
  cases o with
  | error er => trivial
  | ok file =>
    refine fun hu => .ite (fun _ => hu.counted h) fun herr => ?_
    refine guarantees_perform_bind Idles.trans (fun _ _ hu => hu)
      (Block.moves_call Idles.refl Idles.refl) hu (fun _ _ hu => hu.counted h)
      fun v hv => ends_findManyInvitations.2 fun hv => ?_
    have hrows : acceptedRows cfg file =
      file.rawRows.map (applyMapping (mapColumns cfg file.headers)) :=
      if_pos (by rwa [Bool.not_eq_true, Bool.not_eq_false'] at herr)
    have hnames : takenNames e s = takenNames e v := by
      have hdb : v.db = s.db := hv
      rw [takenNames, takenNames, hdb]
    have hn := fun ht => hn ht file rfl
    rw [hrows, hnames] at hn
    exact Prog.Guarantees.bind <| (importRows_counted (hv.counted h) hn).weaken fun o v hv => by
      cases o <;> exact hv

end AdminWrite

/-- The counters that a call stores, read off its file and the names taken when it arrives. -/
def Request.counters (cfg : Config) (q : Request) (w : World) : List Int :=
  match q.call with
  | .importInvitations e key uploadType sheet _ =>
    if key = "" || uploadType = "" || q.context.tenantId.isNone then []
    else match ((AdminWrite.readSheet uploadType sheet).solo false w).1 with
      | .ok file => AdminWrite.counters (AdminWrite.acceptedRows cfg file)
          (AdminWrite.takenNames e w)
      | .error _ => []
  | _ => []

theorem CountersOk.exec {q : Request} {r : Except Exception Unit}
    (hex : Prog.Exec (ReflTransGen (service cfg).env) ((service cfg).exec q)
      ((service cfg).arrive q s) r v) (h : CountersOk s.db.invitations)
    (hn : ∀ n ∈ q.counters cfg s, 0 ≤ n) : CountersOk v.db.invitations := by
  by_cases hq : q.call.Imports
  · obtain ⟨c, ctx⟩ := q
    cases c with
    | importInvitations e key uploadType sheet user =>
      have hg : (Resolver.importInvitations cfg ctx e key uploadType sheet user).Guarantees
          AdminWrite.Idles (fun _ _ => True) (fun _ v => CountersOk v.db.invitations)
          ((service cfg).arrive ⟨.importInvitations e key uploadType sheet user, ctx⟩ s) := by
        unfold Resolver.importInvitations
        refine .ite (fun _ => h) fun hkey => ?_
        refine Prog.Guarantees.bind <| (AdminWrite.importInvitations_counted h
          fun ht file hf n hmem => ?_).weaken fun o v hv => by cases o <;> exact hv
        have htenant : ctx.tenantId.isNone = false := by
          rw [← Option.not_isSome, ht]
          rfl
        refine hn n ?_
        unfold Request.counters
        dsimp only
        rw [if_neg (by simpa [htenant] using hkey), hf]
        exact hmem
      exact hex.ends hg fun _ _ => environments_db
    | _ => exact hq.elim
  · exact (hex.sound (I := fun w => CountersOk w.db.invitations) (service_guarantees q s) h
      (System.env_star fun t u ht he => by rwa [environment_db he])
      fun t u ht hA => ht.action hA hq).1

/-- Unless an import stores a negative number, no invitation ever allows less than no plus-one,
and the plus-ones admitted with an RSVP are at most those allowed. -/
theorem counters_nonneg {h : List CallRecord} (hs : (service cfg).Serial .empty h w)
    (hn : ∀ x ∈ h, ∀ n ∈ x.call.counters cfg x.before, 0 ≤ n) (i : Nat) (r : Invitation)
    (hr : w.row i = some r) : 0 ≤ r.maxInvitees ∧ ∀ plusOnes : List PublicPlusOneInput,
      ((slicePrefix r.maxInvitees plusOnes).length : Int) ≤ r.maxInvitees := by
  have hw : CountersOk w.db.invitations := by
    clear hr
    induction hs with
    | start => exact fun i r hr => by cases hr
    | env _ he ih => rw [environment_db he]; exact ih hn
    | @call g t u q o hrun hen hex ih =>
      exact CountersOk.exec hex (ih fun x hx => hn x (List.mem_append_left _ hx))
        (hn ⟨t, q, o⟩ (List.mem_append_right _ List.mem_cons_self))
  exact ⟨hw i r hr, fun plusOnes => length_slicePrefix (hw i r hr) plusOnes⟩

def importOf (n : Int) : Request :=
  ⟨.importInvitations 7 "k" "xlsx" (some {
      headers := ["firstname", "lastname", "guests"]
      rawRows := [[("firstname", ⟨"A", true, none⟩), ("lastname", ⟨"B", true, none⟩),
        ("guests", ⟨toString n, n ≠ 0, some n⟩)]] }) 5,
    { tenantId := some 1 }⟩

theorem counters_nonneg_import : ∃ r, (trace plainConfig [importOf 2] .empty).2.row 0 = some r ∧
    0 ≤ r.maxInvitees ∧ ∀ plusOnes : List PublicPlusOneInput,
      ((slicePrefix r.maxInvitees plusOnes).length : Int) ≤ r.maxInvitees := by
  have hrow : ((trace plainConfig [importOf 2] .empty).2.row 0).isSome = true := by decide +kernel
  have hn : ((importOf 2).counters plainConfig .empty).all (0 ≤ ·) = true := by decide +kernel
  obtain ⟨r, hr⟩ := Option.isSome_iff_exists.1 hrow
  refine ⟨r, hr, counters_nonneg (serial_trace [importOf 2] .empty (by decide))
    (fun x hx n hmem => ?_)
    0 r hr⟩
  obtain rfl := List.mem_singleton.1 hx
  exact of_decide_eq_true (List.all_eq_true.1 hn n hmem)

/-- A row of the file with `-1`. -/
theorem not_counters_nonneg : ¬ ∀ w, Reachable plainConfig w → ∀ i r, w.row i = some r →
    0 ≤ r.maxInvitees ∧ ∀ plusOnes : List PublicPlusOneInput,
      ((slicePrefix r.maxInvitees plusOnes).length : Int) ≤ r.maxInvitees := by
  intro hall
  have hrow : ((trace plainConfig [importOf (-1)] .empty).2.row 0).any
    (·.maxInvitees < 0) = true := by
    decide +kernel
  obtain ⟨r, hr, hneg⟩ := (Option.any_eq_true _ _).1 hrow
  have h := (hall _ ⟨_, serial_trace [importOf (-1)] .empty (by decide)⟩ 0 r hr).1
  exact absurd h (Int.not_le.2 (of_decide_eq_true hneg))

end InvitationService

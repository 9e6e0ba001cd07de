import InvitationService.Import.Columns
import InvitationService.Invariants.Counter
import InvitationService.Lib.FirstSeen
import InvitationService.Lifecycle.Alone

namespace InvitationService

open Resumption Query FirstSeen

namespace MappedRow

def names (row : MappedRow) : String × String :=
  (cellText (row .firstName), cellText (row .lastName))

def fullName (row : MappedRow) : String := row.names.1 ++ " " ++ row.names.2

/-- The cell of `maxPlusOnes` is absent or a non-negative integer. -/
def Counts (row : MappedRow) : Prop :=
  ∀ cell, row .maxPlusOnes = some cell → ∃ n : Int, 0 ≤ n ∧ cell.number = some n

/-- The column can hold the number in the cell of `maxPlusOnes`. -/
def fits (row : MappedRow) : Bool :=
  (row .maxPlusOnes).all fun cell => cell.number.all fitsInt

/-- The row can become an invitation: there is a tenant for its fact, and its number fits. -/
def Storable (ctx : Context) (row : MappedRow) : Prop :=
  ctx.tenantId.isSome = true ∧ row.fits = true

instance (ctx : Context) (row : MappedRow) : Decidable (row.Storable ctx) :=
  inferInstanceAs (Decidable (_ ∧ _))

end MappedRow

def joined (names : String × String) : String := nameKey names.1 names.2

/-- Each row is one new invitation, in order; nothing else changes. -/
structure Adds (e : EventId) (rows : List MappedRow) (w v : World) : Prop where
  next : v.db.invitations.next = w.db.invitations.next + rows.length
  old : ∀ i, i < w.db.invitations.next → v.row i = w.row i
  new : ∀ (k : Nat) (row : MappedRow), rows[k]? = some row →
    ∃ r, v.row (w.db.invitations.next + k) = some r ∧ r.eventId = e ∧
      (r.firstName, r.lastName) = row.names

theorem Adds.nil (e : EventId) (w : World) : Adds e [] w w :=
  ⟨rfl, fun _ _ => rfl, fun k row h => by simp at h⟩

theorem Adds.cons {e : EventId} {row : MappedRow} {rows : List MappedRow} {u v w : World}
    (h : Adds e [row] w u) (ht : Adds e rows u v) : Adds e (row :: rows) w v := by
  have hnext := h.next
  simp only [List.length_singleton] at hnext
  refine ⟨?_, fun i hi => ?_, fun k row' hk => ?_⟩
  · rw [ht.next, hnext, List.length_cons]
    omega
  · rw [ht.old i (by omega), h.old i hi]
  · cases k with
    | zero =>
      obtain ⟨r, hr, hnames⟩ := h.new 0 row' hk
      exact ⟨r, (ht.old _ (by omega)).trans hr, hnames⟩
    | succ k =>
      obtain ⟨r, hr, hnames⟩ := ht.new k row' hk
      refine ⟨r, ?_, hnames⟩
      rw [hnext] at hr
      rwa [Nat.add_assoc, Nat.add_comm 1 k] at hr

namespace AdminWrite

variable {cfg : Config} {ctx : Context} {e : EventId} {user : UserId} {w : World}
  {row : MappedRow} {rows : List MappedRow} {existingSet : List String}

theorem adds_insert {r : Invitation} {o : List OutboxRow}
    (he : r.eventId = e) (hnames : (r.firstName, r.lastName) = row.names)
    (h : w.db.invitations.ParentExists (r.stamped w.now).invitedByInvitationId) :
    Adds e [row] w
      ((w.setInvitations (w.db.invitations.insert (r.stamped w.now) h)).addFacts o) := by
  refine ⟨rfl, fun i hi => ?_, fun k row' hk => ?_⟩
  · exact if_neg hi.ne
  · obtain ⟨rfl, rfl⟩ : k = 0 ∧ row = row' := by
      cases k with
      | zero => exact ⟨rfl, by simpa using hk⟩
      | succ k => simp at hk
    exact ⟨(r.stamped w.now).withId w.db.invitations.next, if_pos rfl, he, hnames⟩

theorem importRow_eq (ctx : Context) (e : EventId) (user : UserId) (hrow : row.Counts) :
    ∃ n : Int, fitsInt n = row.fits ∧
      importRow ctx e user row.names.1 row.names.2 (row .maxPlusOnes) = Query.transaction (
        if fitsInt n then do
          let invitation ← createInvitation
            (importedInvitation e user row.names.1 row.names.2 n)
          enqueue ctx "invitation.created.v1"
            (invitationCreated invitation (some user) false (some "import"))
        else throw .valueOutOfRange) := by
  unfold importRow MappedRow.fits
  cases hcell : row .maxPlusOnes with
  | none => exact ⟨0, rfl, rfl⟩
  | some cell =>
    obtain ⟨n, -, hn⟩ := hrow cell hcell
    refine ⟨n, by rw [Option.all_some, hn, Option.all_some], ?_⟩
    rw [Option.map_some, hn]
    rfl

theorem parentExists_imported (e : EventId) (user : UserId) (firstName lastName : String) (n : Int)
    (t : InvitationTable) :
    t.ParentExists (importedInvitation e user firstName lastName n).invitedByInvitationId := by
  intro q hq
  cases hq

theorem solo_importRow (e : EventId) (user : UserId) (w : World) (hrow : row.Counts)
    (hok : row.Storable ctx) :
    ∃ v, (importRow ctx e user row.names.1 row.names.2 (row .maxPlusOnes)).solo
        (fun _ => false) w = (.ok (), v) ∧ Adds e [row] w v := by
  obtain ⟨tenant, ht⟩ := Option.isSome_iff_exists.1 hok.1
  obtain ⟨n, hfits, hn⟩ := importRow_eq ctx e user hrow
  have hp := parentExists_imported e user row.names.1 row.names.2 n w.db.invitations
  rw [hn, if_pos (hfits.trans hok.2), Query.transaction, solo_transaction,
    Prog.solo_bind_ok (solo_createInvitation hp), solo_enqueue ht]
  refine ⟨_, rfl, ?_⟩
  exact adds_insert (r := importedInvitation e user row.names.1 row.names.2 n) rfl rfl hp

theorem solo_importRow_error (e : EventId) (user : UserId) (w : World) (hrow : row.Counts)
    (hbad : ¬ row.Storable ctx) :
    ∃ er v, (importRow ctx e user row.names.1 row.names.2 (row .maxPlusOnes)).solo
        (fun _ => false) w = (.error er, v) := by
  obtain ⟨n, hfits, hn⟩ := importRow_eq ctx e user hrow
  have hp := parentExists_imported e user row.names.1 row.names.2 n w.db.invitations
  rw [hn, Query.transaction, solo_transaction]
  by_cases h : fitsInt n = true
  · have ht : ctx.tenantId = none := by
      refine Option.not_isSome_iff_eq_none.1 fun ht => hbad ⟨ht, ?_⟩
      rw [← hfits, h]
    rw [if_pos h, Prog.solo_bind_ok (solo_createInvitation hp)]
    simp only [enqueue, ht]
    exact ⟨_, _, rfl⟩
  · rw [if_neg h]
    exact ⟨_, _, rfl⟩

/-- The loop imports the rows whose key comes up for the first time. -/
theorem solo_importRows (e : EventId) (user : UserId) (existingSet : List String) (w : World)
    (hrows : ∀ row ∈ rows, row.Counts)
    (hok : ∀ row ∈ firsts (joined ∘ MappedRow.names) existingSet rows, row.Storable ctx) :
    ∃ v, (importRows ctx e user rows existingSet).solo (fun _ => false) w =
        (.ok ((firsts (joined ∘ MappedRow.names) existingSet rows).length,
          (repeats (joined ∘ MappedRow.names) existingSet rows).map MappedRow.fullName), v) ∧
      Adds e (firsts (joined ∘ MappedRow.names) existingSet rows) w v := by
  induction rows generalizing existingSet w with
  | nil => exact ⟨w, rfl, .nil e w⟩
  | cons row rows ih =>
    have hrows' : ∀ row ∈ rows, row.Counts := fun row hr => hrows row (List.mem_cons_of_mem _ hr)
    by_cases hk : (joined ∘ MappedRow.names) row ∈ existingSet
    · rw [firsts, if_pos hk] at hok ⊢
      rw [repeats, if_pos hk]
      obtain ⟨v, hv, hadds⟩ := ih existingSet w hrows' hok
      refine ⟨v, ?_, hadds⟩
      have hk : nameKey (cellText (row .firstName)) (cellText (row .lastName)) ∈ existingSet := hk
      simp only [importRows, if_pos hk]
      rw [Prog.solo_bind_ok hv]
      rfl
    · rw [firsts, if_neg hk] at hok ⊢
      rw [repeats, if_neg hk]
      obtain ⟨hfirst, hrest⟩ := List.forall_mem_cons.1 hok
      obtain ⟨u, hu, hone⟩ := solo_importRow e user w (hrows row List.mem_cons_self) hfirst
      obtain ⟨v, hv, hadds⟩ := ih ((joined ∘ MappedRow.names) row :: existingSet) u hrows' hrest
      refine ⟨v, ?_, hone.cons hadds⟩
      have hk : ¬ nameKey (cellText (row .firstName)) (cellText (row .lastName)) ∈ existingSet := hk
      simp only [importRows, if_neg hk]
      refine (Prog.solo_bind_ok hu).trans ?_
      refine (Prog.solo_bind_ok hv).trans rfl

theorem solo_importRows_error (e : EventId) (user : UserId) (existingSet : List String) (w : World)
    (hrows : ∀ row ∈ rows, row.Counts)
    (hbad : ¬ ∀ row ∈ firsts (joined ∘ MappedRow.names) existingSet rows, row.Storable ctx) :
    ∃ er v, (importRows ctx e user rows existingSet).solo (fun _ => false) w = (.error er, v) := by
  induction rows generalizing existingSet w with
  | nil => exact absurd (fun row hr => absurd hr List.not_mem_nil) hbad
  | cons row rows ih =>
    have hrows' : ∀ row ∈ rows, row.Counts := fun row hr => hrows row (List.mem_cons_of_mem _ hr)
    by_cases hk : (joined ∘ MappedRow.names) row ∈ existingSet
    · rw [firsts, if_pos hk] at hbad
      obtain ⟨er, v, hv⟩ := ih existingSet w hrows' hbad
      have hk : nameKey (cellText (row .firstName)) (cellText (row .lastName)) ∈ existingSet := hk
      simp only [importRows, if_pos hk]
      exact ⟨er, v, Prog.solo_bind_error hv⟩
    · rw [firsts, if_neg hk, List.forall_mem_cons, not_and] at hbad
      have hk' : ¬ nameKey (cellText (row .firstName)) (cellText (row .lastName)) ∈
        existingSet := hk
      simp only [importRows, if_neg hk']
      by_cases hfirst : row.Storable ctx
      · obtain ⟨u, hu, -⟩ := solo_importRow e user w (hrows row List.mem_cons_self) hfirst
        obtain ⟨er, v, hv⟩ := ih ((joined ∘ MappedRow.names) row :: existingSet) u hrows'
          (hbad hfirst)
        refine ⟨er, v, (Prog.solo_bind_ok hu).trans ?_⟩
        exact Prog.solo_bind_error hv
      · obtain ⟨er, v, hv⟩ := solo_importRow_error e user w (hrows row List.mem_cons_self) hfirst
        exact ⟨er, v, Prog.solo_bind_error hv⟩

def mappedRows (cfg : Config) (file : Sheet) : List MappedRow :=
  file.rawRows.map (applyMapping (mapColumns cfg file.headers))

def validationErrors (cfg : Config) (file : Sheet) : List String :=
  ((mappedRows cfg file).zipIdx.map fun (row, i) => rowErrors i row).flatten

def takenPairs (e : EventId) (w : World) : List (String × String) :=
  (w.db.invitations.select (·.eventId = e)).map fun r => (r.firstName, r.lastName)

theorem mem_takenNames (key : String) :
    key ∈ takenNames e w ↔ ∃ pair ∈ takenPairs e w, joined pair = key := by
  simp [takenNames, takenPairs, joined]

section Import

variable {uploadType : String} {sheet : Option Sheet} {file : Sheet}
  (hfile : ((readSheet uploadType sheet).solo false w).1 = .ok file)

include hfile

theorem solo_readSheet : (readSheet uploadType sheet).solo false w = (.ok file, w) := by
  obtain ⟨o, ho⟩ := readSheet_ret uploadType sheet
  rw [ho, Prog.solo_ret] at hfile ⊢
  exact Prod.ext hfile rfl

theorem solo_importInvitations_refused (herr : validationErrors cfg file ≠ []) :
    (importInvitations cfg ctx e uploadType sheet user).solo (fun _ => false) w =
      (.ok ⟨(mappedRows cfg file).length, 0, (mappedRows cfg file).length, [],
        validationErrors cfg file⟩, w) := by
  have hread := solo_readSheet hfile
  unfold importInvitations
  refine (Prog.solo_bind_ok (t := w) (by rw [liftM_eq, solo_perform, Block.solo_call])).trans ?_
  refine (Prog.solo_bind_ok (by rw [liftM_eq, solo_perform, hread])).trans ?_
  dsimp only
  rw [if_pos]
  · rfl
  · rw [Bool.not_eq_true', List.isEmpty_eq_false_iff]
    exact herr

theorem solo_importInvitations (hvalid : validationErrors cfg file = []) :
    (importInvitations cfg ctx e uploadType sheet user).solo (fun _ => false) w =
      match (importRows ctx e user (mappedRows cfg file) (takenNames e w)).solo
          (fun _ => false) w with
      | (.ok (imported, duplicates), v) => (.ok ⟨(mappedRows cfg file).length, imported,
          (mappedRows cfg file).length - imported, duplicates, []⟩, v)
      | (.error er, v) => (.error er, v) := by
  have hread := solo_readSheet hfile
  unfold importInvitations
  refine (Prog.solo_bind_ok (t := w) (by rw [liftM_eq, solo_perform, Block.solo_call])).trans ?_
  refine (Prog.solo_bind_ok (by rw [liftM_eq, solo_perform, hread])).trans ?_
  dsimp only
  rw [if_neg]
  · refine (Prog.solo_bind_ok (by rw [liftM_eq, solo_perform, solo_findManyInvitations])).trans ?_
    rw [Prog.solo_bind]
    unfold mappedRows takenNames
    generalize Prog.solo _ _ w = x
    obtain ⟨r, v⟩ := x
    cases r <;> rfl
  · rw [Bool.not_eq_true', List.isEmpty_eq_false_iff, not_not]
    exact hvalid

end Import

/-- The file was imported by the pairs of names: a row is a duplicate if its pair is that of
an invitation or of an earlier imported row, and every other row is one new invitation. -/
structure ImportedByPair (e : EventId) (rows : List MappedRow)
    (result : ImportInvitationsResult) (w v : World) : Prop where
  created : Adds e (firsts MappedRow.names (takenPairs e w) rows) w v
  named : ∀ row ∈ firsts MappedRow.names (takenPairs e w) rows,
    row.names.1 ≠ "" ∧ row.names.2 ≠ ""
  duplicates : result.duplicates =
    (repeats MappedRow.names (takenPairs e w) rows).map MappedRow.fullName
  imported : result.imported = (firsts MappedRow.names (takenPairs e w) rows).length
  skipped : result.skipped = result.duplicates.length
  total : result.total = rows.length ∧ result.total = result.imported + result.skipped

/-- The keys tell the names of the file apart as the pairs do, and every row with a new key can
become an invitation and has no blank name. -/
structure KeysSuffice (ctx : Context) (e : EventId) (rows : List MappedRow) (w : World) :
    Prop where
  storable : Throughout (fun pre row =>
    ¬ FirstSeen.Seen (joined ∘ MappedRow.names) (takenNames e w) pre row → row.Storable ctx) rows
  apart : Throughout (fun pre row => FirstSeen.Seen (joined ∘ MappedRow.names)
    (takenNames e w) pre row →
    FirstSeen.Seen MappedRow.names (takenPairs e w) pre row) rows
  named : Throughout (fun pre row => ¬ FirstSeen.Seen (joined ∘ MappedRow.names)
    (takenNames e w) pre row →
    row.names.1 ≠ "" ∧ row.names.2 ≠ "") rows

section Pairs

variable {uploadType : String} {sheet : Option Sheet} {file : Sheet}
  (hfile : ((readSheet uploadType sheet).solo false w).1 = .ok file)
  (hvalid : validationErrors cfg file = []) (hcounts : ∀ row ∈ mappedRows cfg file, row.Counts)

include hfile hvalid hcounts

variable (user)

/-- A row with a new key that cannot become an invitation ends the import. -/
theorem importInvitations_fails (hbad : ¬ ∀ row ∈ firsts (joined ∘ MappedRow.names)
      (takenNames e w) (mappedRows cfg file), row.Storable ctx) :
    ∃ er v, (importInvitations cfg ctx e uploadType sheet user).solo (fun _ => false) w =
      (.error er, v) := by
  obtain ⟨er, v, hv⟩ := solo_importRows_error e user (takenNames e w) w hcounts hbad
  exact ⟨er, v, by rw [solo_importInvitations hfile hvalid, hv]⟩

theorem importInvitations_returns (hok : ∀ row ∈ firsts (joined ∘ MappedRow.names)
      (takenNames e w) (mappedRows cfg file), row.Storable ctx) :
    ∃ v, (importInvitations cfg ctx e uploadType sheet user).solo (fun _ => false) w =
        (.ok ⟨(mappedRows cfg file).length,
          (firsts (joined ∘ MappedRow.names) (takenNames e w) (mappedRows cfg file)).length,
          (repeats (joined ∘ MappedRow.names) (takenNames e w) (mappedRows cfg file)).length,
          (repeats (joined ∘ MappedRow.names) (takenNames e w) (mappedRows cfg file)).map
            MappedRow.fullName, []⟩, v) ∧
      Adds e (firsts (joined ∘ MappedRow.names) (takenNames e w) (mappedRows cfg file)) w v := by
  obtain ⟨v, hv, hadds⟩ := solo_importRows e user (takenNames e w) w hcounts hok
  have hsum := length_firsts_add_length_repeats (joined ∘ MappedRow.names) (takenNames e w)
    (mappedRows cfg file)
  refine ⟨v, ?_, hadds⟩
  rw [solo_importInvitations hfile hvalid, hv]
  dsimp only
  rw [← hsum, Nat.add_sub_cancel_left]

theorem keysSuffice_of_imported (himp : ∃ result v,
      (importInvitations cfg ctx e uploadType sheet user).solo (fun _ => false) w =
        (.ok result, v) ∧ ImportedByPair e (mappedRows cfg file) result w v) :
    KeysSuffice ctx e (mappedRows cfg file) w := by
  obtain ⟨result, v, heq, himp⟩ := himp
  by_cases hok : ∀ row ∈ firsts (joined ∘ MappedRow.names) (takenNames e w) (mappedRows cfg file),
      row.Storable ctx
  · obtain ⟨v', hv, -⟩ := importInvitations_returns user hfile hvalid hcounts hok
    rw [hv] at heq
    cases heq
    -- as many rows are new by their keys as by their pairs
    have hsame : firsts (joined ∘ MappedRow.names) (takenNames e w) (mappedRows cfg file) =
        firsts MappedRow.names (takenPairs e w) (mappedRows cfg file) :=
      (firsts_comp_sublist mem_takenNames).eq_of_length himp.imported
    refine ⟨forall_mem_firsts.1 hok, (firsts_comp_eq_iff mem_takenNames).1 hsame, ?_⟩
    exact forall_mem_firsts.1 (hsame ▸ himp.named)
  · obtain ⟨er, v', hv⟩ := importInvitations_fails user hfile hvalid hcounts hok
    rw [hv] at heq
    cases heq

theorem imported_of_keysSuffice (hk : KeysSuffice ctx e (mappedRows cfg file) w) :
    ∃ result v, (importInvitations cfg ctx e uploadType sheet user).solo (fun _ => false) w =
        (.ok result, v) ∧ ImportedByPair e (mappedRows cfg file) result w v := by
  have hsame := (firsts_comp_eq_iff mem_takenNames).2 hk.apart
  have hrepeats := repeats_comp_eq mem_takenNames hk.apart
  obtain ⟨v, hv, hadds⟩ := importInvitations_returns user hfile hvalid hcounts
    (forall_mem_firsts.2 hk.storable)
  rw [hsame, hrepeats] at hv
  rw [hsame] at hadds
  refine ⟨_, v, hv, hadds, ?_, rfl, rfl, (List.length_map ..).symm, rfl, ?_⟩
  · exact hsame ▸ forall_mem_firsts.2 hk.named
  · exact (length_firsts_add_length_repeats ..).symm

/-- The import goes by the pairs of names where their keys tell them apart. -/
theorem imported_by_pair_iff :
    (∃ result v, (importInvitations cfg ctx e uploadType sheet user).solo (fun _ => false) w =
        (.ok result, v) ∧ ImportedByPair e (mappedRows cfg file) result w v) ↔
      KeysSuffice ctx e (mappedRows cfg file) w :=
  ⟨keysSuffice_of_imported user hfile hvalid hcounts,
    imported_of_keysSuffice user hfile hvalid hcounts⟩

end Pairs

/-- The indices of the rows that the import skips: those whose key is in the set when their
turn comes. -/
def skippedRows (e : EventId) (rows : List MappedRow) (w : World) : List Nat :=
  (repeats (fun entry : MappedRow × Nat => joined entry.1.names) (takenNames e w)
    rows.zipIdx).map (·.2)

theorem getElem?_skippedRows (e : EventId) (rows : List MappedRow) (w : World) :
    (skippedRows e rows w).map (rows[·]?) =
      (repeats (joined ∘ MappedRow.names) (takenNames e w) rows).map some := by
  have hrows : repeats (joined ∘ MappedRow.names) (takenNames e w) rows =
      (repeats (fun entry : MappedRow × Nat => joined entry.1.names) (takenNames e w)
        rows.zipIdx).map (·.1) := by
    rw [← List.zipIdx_map_fst 0 rows, repeats_map, List.zipIdx_map_fst]
    rfl
  rw [hrows, skippedRows, List.map_map, List.map_map]
  refine List.map_congr_left fun entry hentry => ?_
  exact List.mk_mem_zipIdx_iff_getElem?.1 ((repeats_sublist ..).subset hentry)

theorem length_skippedRows (e : EventId) (rows : List MappedRow) (w : World) :
    (skippedRows e rows w).length =
      (repeats (joined ∘ MappedRow.names) (takenNames e w) rows).length := by
  have h := congrArg List.length (getElem?_skippedRows e rows w)
  rwa [List.length_map, List.length_map] at h

section Example

def namesRow (firstName lastName : String) : List (String × Cell) :=
  [("vorname", textCell firstName), ("nachname", textCell lastName)]

def repeatedSheet : Sheet :=
  ⟨["vorname", "nachname"], [namesRow "Anna" "Meier", namesRow " Anna" "Meier"]⟩

def dashSheet : Sheet :=
  ⟨["vorname", "nachname"], [namesRow "Anna" "Lena-Meier", namesRow "Anna-Lena" "Meier"]⟩

theorem counts_of_absent (h : row .maxPlusOnes = none) : row.Counts := fun cell hcell => by
  rw [h] at hcell
  cases hcell

theorem imported_by_pair_repeated : ∃ result v,
    (importInvitations plainConfig { tenantId := some 1 } 7 "xlsx" (some repeatedSheet) 5).solo
        (fun _ => false) World.empty = (.ok result, v) ∧
      ImportedByPair 7 (mappedRows plainConfig repeatedSheet) result World.empty v := by
  have habsent : ∀ row ∈ mappedRows plainConfig repeatedSheet, row .maxPlusOnes = none := by decide
  exact (imported_by_pair_iff 5 rfl (by decide) fun row hrow =>
    counts_of_absent (habsent row hrow)).2 ⟨by decide, by decide, by decide⟩

/-- The second guest is skipped. -/
theorem dashSheet_not_by_pair : ¬ ∃ result v,
    (importInvitations plainConfig { tenantId := some 1 } 7 "xlsx" (some dashSheet) 5).solo
        (fun _ => false) World.empty = (.ok result, v) ∧
      ImportedByPair 7 (mappedRows plainConfig dashSheet) result World.empty v := by
  have habsent : ∀ row ∈ mappedRows plainConfig dashSheet, row .maxPlusOnes = none := by decide
  intro himp
  have hk := keysSuffice_of_imported 5 rfl (by decide)
    (fun row hrow => counts_of_absent (habsent row hrow)) himp
  exact absurd hk.apart (by decide)

end Example

end AdminWrite
end InvitationService

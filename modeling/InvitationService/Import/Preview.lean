import InvitationService.Import.Duplicates
import InvitationService.Model.InvitationPreview

namespace InvitationService

open Resumption Query FirstSeen AdminWrite

variable {cfg : Config} {ctx : Context} {e : EventId} {type : String} {user : UserId}
  {sheet : Option ValueSheet} {file : ValueSheet} {w : World}

def ValueRow.searched (row : ValueRow) : String × String :=
  (toSearchString (row .firstName), toSearchString (row .lastName))

namespace InvitationPreview

def valueRows (cfg : Config) (file : ValueSheet) : List ValueRow :=
  file.rawRows.map (applyMapping (mapColumns cfg file.headers))

theorem toCells_applyMapping (mapping : String → Option CanonicalField)
    (row : List (String × CellValue)) :
    (applyMapping mapping row).toCells =
      InvitationService.applyMapping mapping (row.map fun (key, value) => (key, value.toCell)) := by
  funext field
  unfold ValueRow.toCells applyMapping InvitationService.applyMapping
  rw [← List.map_reverse, List.find?_map, Option.map_map, Option.map_map]
  rfl

theorem mappedRows_toSheet (cfg : Config) (file : ValueSheet) :
    mappedRows cfg file.toSheet = (valueRows cfg file).map (·.toCells) := by
  unfold mappedRows valueRows ValueSheet.toSheet
  rw [List.map_map, List.map_map]
  exact List.map_congr_left fun row _ => (toCells_applyMapping _ row).symm

theorem rowErrors_eq_nil_iff (i : Nat) (row : ValueRow) :
    rowErrors i row = [] ↔ InvitationService.rowErrors i row.toCells = [] := by
  have hany : ∀ field, (row.toCells field).any (·.truthy) = (row field).any (·.truthy) := by
    intro field
    unfold ValueRow.toCells
    rw [Option.any_map]
  unfold rowErrors InvitationService.rowErrors
  rw [List.filterMap_eq_nil_iff, List.filterMap_eq_nil_iff]
  simp only [hany]
  refine forall_congr' fun field => forall_congr' fun _ => ?_
  split <;> simp

def errors (cfg : Config) (file : ValueSheet) : List String :=
  ((valueRows cfg file).zipIdx.map fun (row, i) => rowErrors i row).flatten

theorem errors_eq_nil_iff :
    errors cfg file = [] ↔ validationErrors cfg file.toSheet = [] := by
  unfold errors validationErrors
  rw [mappedRows_toSheet, List.zipIdx_map, List.map_map, List.flatten_eq_nil_iff,
    List.flatten_eq_nil_iff]
  simp only [List.forall_mem_map]
  exact forall_congr' fun a => forall_congr' fun _ => rowErrors_eq_nil_iff a.2 a.1

theorem readSheet_pure (type : String) (sheet : Option ValueSheet) :
    ∃ o, readSheet type sheet = .ret o := by
  unfold readSheet
  split
  · exact ⟨_, rfl⟩
  · split
    · split <;> exact ⟨_, rfl⟩
    · exact ⟨_, rfl⟩

theorem readSheet_toSheet (hfile : ((readSheet type sheet).solo false w).1 = .ok file) :
    ((AdminWrite.readSheet type (sheet.map (·.toSheet))).solo false w).1 = .ok file.toSheet := by
  unfold readSheet at hfile
  unfold AdminWrite.readSheet
  split at hfile
  · rename_i h
    rw [if_pos h]
    cases hfile
    cases sheet with
    | none => rfl
    | some s =>
      obtain ⟨headers, rows⟩ := s
      cases rows with
      | nil => rfl
      | cons row rows => simp [ValueSheet.toSheet, Function.comp_def]
  · rename_i h
    rw [if_neg h]
    split at hfile
    · rename_i h
      rw [if_pos h]
      cases sheet with
      | none => cases hfile
      | some s =>
        cases hfile
        rfl
    · rename_i h
      rw [if_neg h]
      cases hfile
      rfl

@[simp] theorem solo_findFirstInvitation {p : Invitation → Bool} :
    (findFirstInvitation p).solo false w = (.ok (w.db.invitations.select p).head?, w) :=
  Block.solo_call

theorem isSome_head?_select (row : ValueRow) :
    (w.db.invitations.select fun invitation => invitation.eventId = e &&
        invitation.firstName = toSearchString (row .firstName) &&
        invitation.lastName = toSearchString (row .lastName)).head?.isSome =
      decide (row.searched ∈ takenPairs e w) := by
  rw [Bool.eq_iff_iff, decide_eq_true_iff, List.isSome_head?, Ne, List.eq_nil_iff_forall_not_mem,
    not_forall_not, takenPairs, List.mem_map]
  simp only [InvitationTable.mem_select, Bool.and_eq_true, decide_eq_true_eq, ValueRow.searched,
    Prod.mk.injEq, and_assoc]

theorem solo_findDuplicates (rows : List (ValueRow × Nat)) :
    (findDuplicates e rows).solo (fun _ => false) w =
      (.ok ((rows.filter fun (row, _) => row.searched ∈ takenPairs e w).map (·.2)), w) := by
  induction rows with
  | nil => rfl
  | cons entry rows ih =>
    obtain ⟨row, i⟩ := entry
    unfold findDuplicates
    refine (Prog.solo_bind_ok (by rw [liftM_eq, solo_perform, solo_findFirstInvitation])).trans ?_
    refine (Prog.solo_bind_ok ih).trans ?_
    rw [isSome_head?_select, List.filter_cons]
    by_cases h : row.searched ∈ takenPairs e w
    · simp [h]
    · simp [h]

section

variable (hfile : ((readSheet type sheet).solo false w).1 = .ok file)

include hfile

theorem solo_preview : (preview cfg e type sheet).solo (fun _ => false) w = (.ok {
      headers := file.headers
      mapping := mapColumns cfg file.headers
      confidence := fun header =>
        if header ∈ file.headers then some (mapColumn cfg header).bestScore else none
      rows := (valueRows cfg file).take 20
      errors := errors cfg file
      duplicates := ((valueRows cfg file).zipIdx.filter fun (row, _) =>
        row.searched ∈ takenPairs e w).map (·.2)
      total := (valueRows cfg file).length }, w) := by
  have hread : (readSheet type sheet).solo false w = (.ok file, w) := by
    obtain ⟨o, ho⟩ := readSheet_pure type sheet
    rw [ho, Prog.solo_ret] at hfile ⊢
    exact Prod.ext hfile rfl
  unfold preview
  refine (Prog.solo_bind_ok (t := w) (by rw [liftM_eq, solo_perform, Block.solo_call])).trans ?_
  refine (Prog.solo_bind_ok (by rw [liftM_eq, solo_perform, hread])).trans ?_
  refine (Prog.solo_bind_ok (solo_findDuplicates _)).trans ?_
  rfl

end

theorem counts_toSheet (hcounts : ∀ row ∈ valueRows cfg file, row.toCells.Counts) :
    ∀ row ∈ mappedRows cfg file.toSheet, row.Counts := by
  rw [mappedRows_toSheet, List.forall_mem_map]
  exact hcounts

theorem skippedRows_toCells (e : EventId) (rows : List ValueRow) (w : World) :
    skippedRows e (rows.map (·.toCells)) w =
      (repeats (fun entry : ValueRow × Nat => joined entry.1.toCells.names) (takenNames e w)
        rows.zipIdx).map (·.2) := by
  unfold skippedRows
  rw [List.zipIdx_map, repeats_map, List.map_map]
  rfl

theorem eq_of_map_snd {α : Type} {rows : List α} {l l' : List (α × Nat)}
    (hl : l ⊆ rows.zipIdx) (hl' : l' ⊆ rows.zipIdx) (h : l.map (·.2) = l'.map (·.2)) : l = l' := by
  have hat : ∀ m : List (α × Nat), m ⊆ rows.zipIdx →
      (m.map (·.2)).map (fun i => rows[i]?.map fun row => (row, i)) = m.map some := by
    intro m hm
    rw [List.map_map]
    refine List.map_congr_left fun entry hentry => ?_
    rw [Function.comp_apply, List.mk_mem_zipIdx_iff_getElem?.1 (hm hentry)]
    rfl
  refine List.map_injective_iff.2 (Option.some_injective _) ?_
  rw [← hat l hl, ← hat l' hl', h]

/-- The preview foretells the import: whether the file is refused, which rows are skipped and
how many invitations are made. -/
def Foretells (cfg : Config) (ctx : Context) (e : EventId) (type : String)
    (sheet : Option ValueSheet) (file : ValueSheet) (user : UserId) (w : World) : Prop :=
  ∃ p, (preview cfg e type sheet).solo (fun _ => false) w = (.ok p, w) ∧
    (p.errors ≠ [] ↔ ∃ result,
      (importInvitations cfg ctx e type (sheet.map (·.toSheet)) user).solo (fun _ => false) w =
        (.ok result, w) ∧ result.errors ≠ []) ∧
    (p.errors = [] → ∃ result v,
      (importInvitations cfg ctx e type (sheet.map (·.toSheet)) user).solo (fun _ => false) w =
        (.ok result, v) ∧
      p.duplicates = skippedRows e (mappedRows cfg file.toSheet) w ∧
      (p.duplicates.map ((mappedRows cfg file.toSheet)[·]?)).map (·.map MappedRow.fullName) =
        result.duplicates.map some ∧
      v.db.invitations.next = w.db.invitations.next + (p.total - p.duplicates.length))

/-- The look-up of a row in the database comes out as that of its key in the set. -/
def FoundAlike (e : EventId) (w : World) (pre : List ValueRow) (row : ValueRow) : Prop :=
  row.searched ∈ takenPairs e w ↔
    FirstSeen.Seen (fun row : ValueRow => joined row.toCells.names) (takenNames e w) pre row

/-- Every row is found alike, and every row with a new key can become an invitation. -/
def LooksUpAlike (ctx : Context) (e : EventId) (rows : List ValueRow) (w : World) : Prop :=
  Throughout (fun pre row =>
      ¬ FirstSeen.Seen (joined ∘ MappedRow.names) (takenNames e w) pre row → row.Storable ctx)
    (rows.map (·.toCells)) ∧
    Throughout (FoundAlike e w) rows

theorem duplicates_eq_iff (rows : List ValueRow) :
    (rows.zipIdx.filter fun (row, _) => row.searched ∈ takenPairs e w).map (·.2) =
        skippedRows e (rows.map (·.toCells)) w ↔ Throughout (FoundAlike e w) rows := by
  have hnodup : rows.zipIdx.Nodup := by
    refine List.Nodup.of_map (·.2) ?_
    rw [List.zipIdx_map_snd]
    exact List.nodup_range'
  have hsub : ∀ p : ValueRow × Nat → Bool, rows.zipIdx.filter p ⊆ rows.zipIdx :=
    fun p => List.filter_subset_self ..
  rw [skippedRows_toCells]
  calc
    _ ↔ (rows.zipIdx.filter fun (row, _) => row.searched ∈ takenPairs e w) =
          repeats (fun entry : ValueRow × Nat => joined entry.1.toCells.names) (takenNames e w)
            rows.zipIdx :=
        ⟨eq_of_map_snd (hsub _) (repeats_sublist ..).subset, fun h => congrArg _ h⟩
    _ ↔ Throughout (fun pre (entry : ValueRow × Nat) =>
          FoundAlike e w (pre.map (·.1)) entry.1) rows.zipIdx := by
        rw [filter_eq_repeats_iff hnodup]
        refine throughout_congr fun pre entry => ?_
        rw [decide_eq_true_iff, FoundAlike, seen_map]
        rfl
    _ ↔ _ := by
        rw [throughout_map (fun entry : ValueRow × Nat => entry.1) (FoundAlike e w),
          List.zipIdx_map_fst]

section

variable (hfile : ((readSheet type sheet).solo false w).1 = .ok file)

include hfile

theorem foretells_refusal (herr : errors cfg file ≠ []) :
    Foretells cfg ctx e type sheet file user w := by
  have hinvalid : validationErrors cfg file.toSheet ≠ [] := fun h => herr (errors_eq_nil_iff.2 h)
  refine ⟨_, solo_preview hfile, ⟨fun _ => ⟨_, solo_importInvitations_refused
    (readSheet_toSheet hfile) hinvalid, hinvalid⟩, fun _ => herr⟩, fun h => absurd h herr⟩

variable (herr : errors cfg file = [])
  (hcounts : ∀ row ∈ valueRows cfg file, row.toCells.Counts)

include herr hcounts

theorem looksUpAlike_of_foretells (hf : Foretells cfg ctx e type sheet file user w) :
    LooksUpAlike ctx e (valueRows cfg file) w := by
  obtain ⟨p, hp, -, himport⟩ := hf
  rw [solo_preview hfile] at hp
  cases hp
  obtain ⟨result, v, hv, hdup, -, -⟩ := himport herr
  rw [mappedRows_toSheet, duplicates_eq_iff] at hdup
  refine ⟨?_, hdup⟩
  by_contra hbad
  rw [← mappedRows_toSheet, ← forall_mem_firsts] at hbad
  obtain ⟨er, v', hv'⟩ := importInvitations_fails user (readSheet_toSheet hfile)
    (errors_eq_nil_iff.1 herr) (counts_toSheet hcounts) hbad
  rw [hv'] at hv
  cases hv

theorem foretells_of_looksUpAlike (h : LooksUpAlike ctx e (valueRows cfg file) w) :
    Foretells cfg ctx e type sheet file user w := by
  obtain ⟨hok, halike⟩ := h
  rw [← mappedRows_toSheet, ← forall_mem_firsts] at hok
  rw [← duplicates_eq_iff, ← mappedRows_toSheet] at halike
  obtain ⟨v, hv, hadds⟩ := importInvitations_returns user (readSheet_toSheet hfile)
    (errors_eq_nil_iff.1 herr) (counts_toSheet hcounts) hok
  refine ⟨_, solo_preview hfile, ⟨fun hne => absurd herr hne, ?_⟩, fun _ =>
    ⟨_, v, hv, halike, ?_, ?_⟩⟩
  · rintro ⟨result, hresult, hne⟩
    rw [hv] at hresult
    cases hresult
    exact absurd rfl hne
  · dsimp only
    rw [halike, getElem?_skippedRows, List.map_map, List.map_map]
    rfl
  · have hsum := length_firsts_add_length_repeats (joined ∘ MappedRow.names) (takenNames e w)
      (mappedRows cfg file.toSheet)
    have hrows : (mappedRows cfg file.toSheet).length = (valueRows cfg file).length := by
      rw [mappedRows_toSheet, List.length_map]
    have hskipped := length_skippedRows e (mappedRows cfg file.toSheet) w
    rw [hadds.next]
    dsimp only
    rw [halike]
    omega

end

theorem foretells_iff (hfile : ((readSheet type sheet).solo false w).1 = .ok file)
    (hcounts : ∀ row ∈ valueRows cfg file, row.toCells.Counts) :
    Foretells cfg ctx e type sheet file user w ↔
      (errors cfg file = [] → LooksUpAlike ctx e (valueRows cfg file) w) := by
  by_cases herr : errors cfg file = []
  · constructor
    · exact fun hf _ => looksUpAlike_of_foretells hfile herr hcounts hf
    · exact fun h => foretells_of_looksUpAlike hfile herr hcounts (h herr)
  · exact ⟨fun _ h => absurd h herr, fun _ => foretells_refusal hfile herr⟩

section Example

def textValue (s : String) : CellValue := { textCell s with kind := .string }

def valuesRow (firstName lastName : String) : List (String × CellValue) :=
  [("vorname", textValue firstName), ("nachname", textValue lastName)]

def guestsSheet : ValueSheet :=
  ⟨["vorname", "nachname"], [valuesRow "Anna" "Meier", valuesRow "Ben" "Meier"]⟩

def twiceSheet : ValueSheet :=
  ⟨["vorname", "nachname"], [valuesRow "Anna" "Meier", valuesRow "Anna" "Meier"]⟩

theorem counts_toCells_of_absent {row : ValueRow} (h : row .maxPlusOnes = none) :
    row.toCells.Counts :=
  counts_of_absent (by rw [ValueRow.toCells, h]; rfl)

theorem guestsSheet_foretold : Foretells plainConfig { tenantId := some 1 } 7 "xlsx"
    (some guestsSheet) guestsSheet 5 World.empty := by
  have habsent : ∀ row ∈ valueRows plainConfig guestsSheet, row .maxPlusOnes = none := by decide
  have halike : Throughout (fun pre row => row.searched ∈ takenPairs 7 World.empty ↔
      FirstSeen.Seen (fun row : ValueRow => joined row.toCells.names) (takenNames 7 World.empty)
        pre row) (valueRows plainConfig guestsSheet) := by decide
  exact (foretells_iff rfl fun row hrow => counts_toCells_of_absent (habsent row hrow)).2
    fun _ => ⟨by decide, halike⟩

/-- The preview does not see the repeated row, which the import skips. -/
theorem twiceSheet_not_foretold : ¬ Foretells plainConfig { tenantId := some 1 } 7 "xlsx"
    (some twiceSheet) twiceSheet 5 World.empty := by
  have habsent : ∀ row ∈ valueRows plainConfig twiceSheet, row .maxPlusOnes = none := by decide
  have hnot : ¬ Throughout (fun pre row => row.searched ∈ takenPairs 7 World.empty ↔
      FirstSeen.Seen (fun row : ValueRow => joined row.toCells.names) (takenNames 7 World.empty)
        pre row) (valueRows plainConfig twiceSheet) := by decide
  intro hf
  exact hnot (looksUpAlike_of_foretells rfl (by decide)
    (fun row hrow => counts_toCells_of_absent (habsent row hrow)) hf).2

end Example

end InvitationPreview
end InvitationService

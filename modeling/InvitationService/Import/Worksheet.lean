import InvitationService.Lib.LatestWins
import InvitationService.Model.Worksheet

namespace InvitationService

open Worksheet

variable {α : Type} {header row : WorksheetRow α} {cell cell' : WorksheetCell α}
  {col col' : Nat} {h : String} {v : α}

def headerAt (header : WorksheetRow α) (col : Nat) : Option String :=
  (header[col - 1]?.join).map (·.text)

/-- The last filled cell of the row in a column that `p` selects. -/
def lastCell (row : WorksheetRow α) (p : Nat → Bool) : Option (WorksheetCell α × Nat) :=
  (row.eachCell.filter fun e => p e.2).getLast?

theorem mem_eachCell :
    (cell, col) ∈ row.eachCell ↔ 1 ≤ col ∧ row[col - 1]? = some (some cell) := by
  unfold WorksheetRow.eachCell
  rw [List.mem_filterMap]
  constructor
  · rintro ⟨⟨c, n⟩, hmem, heq⟩
    rw [List.mk_mem_zipIdx_iff_le_and_getElem?_sub] at hmem
    cases c with
    | none => cases heq
    | some c =>
      cases heq
      exact hmem
  · intro hcell
    exact ⟨(some cell, col), List.mk_mem_zipIdx_iff_le_and_getElem?_sub.2 hcell, rfl⟩

theorem eachCell_pairwise (row : WorksheetRow α) :
    row.eachCell.Pairwise fun a b => a.2 < b.2 := by
  have hcols : ((row.zipIdx 1).map (·.2)).Pairwise (· < ·) := by
    rw [List.zipIdx_map_snd]
    exact List.pairwise_lt_range'
  refine List.Pairwise.filterMap _ (fun a b hab a' ha b' hb => ?_) (List.pairwise_map.1 hcols)
  obtain ⟨a, n⟩ := a
  obtain ⟨b, m⟩ := b
  cases a with
  | none => cases ha
  | some a =>
    cases b with
    | none => cases hb
    | some b =>
      cases ha
      cases hb
      exact hab

theorem headerTexts_eq (header : WorksheetRow α) :
    headerTexts header = (List.reduceOption header).map (·.text) := by
  have hfrom : ∀ n, ((header.zipIdx n).filterMap fun cell =>
      cell.1.map fun c => (c, cell.2)).map (·.1.text) = (List.reduceOption header).map
        (·.text) := by
    induction header with
    | nil => intro n; rfl
    | cons cell header ih =>
      intro n
      cases cell with
      | none => simpa using ih (n + 1)
      | some c => simpa using ih (n + 1)
  exact hfrom 1

theorem lastCell_mem {p : Nat → Bool} (hlast : lastCell row p = some (cell, col)) :
    (cell, col) ∈ row.eachCell ∧ p col = true :=
  List.mem_filter.1 (List.mem_of_getLast? hlast)

theorem exists_lastCell {p : Nat → Bool} (hcell : (cell, col) ∈ row.eachCell) (hp : p col = true) :
    ∃ last, lastCell row p = some last ∧ col ≤ last.2 := by
  have hmem : (cell, col) ∈ row.eachCell.filter fun e => p e.2 := List.mem_filter.2 ⟨hcell, hp⟩
  have hsorted : (row.eachCell.filter fun e => p e.2).Pairwise fun a b => a.2 ≤ b.2 :=
    ((eachCell_pairwise row).imp le_of_lt).filter fun e => p e.2
  have hlatest := LatestWins.isLatest_getLast? hsorted
  cases hlast : lastCell row p with
  | none =>
    have hnil := List.getLast?_eq_none_iff.1 hlast
    rw [hnil] at hmem
    cases hmem
  | some last =>
    rw [show (row.eachCell.filter fun e => p e.2).getLast? = some last from hlast] at hlatest
    exact ⟨last, rfl, hlatest.2 _ hmem⟩

theorem mem_rowObject {headers : List String} : (h, v) ∈ rowObject headers row ↔
    (lastCell row fun col => columnKey headers col = some h).map (·.1.value) = some v := by
  have hentries : (row.eachCell.filterMap fun cell =>
        (columnKey headers cell.2).map fun key => (key, cell.1.value)).filter (·.1 = h) =
      (row.eachCell.filter fun e => columnKey headers e.2 = some h).map
        fun e => (h, e.1.value) := by
    induction row.eachCell with
    | nil => rfl
    | cons e cells ih =>
      obtain ⟨c, n⟩ := e
      cases hkey : columnKey headers n with
      | none => simpa [hkey] using ih
      | some key =>
        by_cases heq : key = h
        · simpa [hkey, heq] using ih
        · simpa [hkey, heq] using ih
  rw [rowObject, Tabular.mem_assignAll, hentries, List.getLast?_map, Option.map_map]
  rfl

/-- Every entry of the row object is a cell under its header, and a cell under a header
gives way only to a later one under the same header. -/
structure KeepsCells (header row : WorksheetRow α) : Prop where
  entry : ∀ h v, (h, v) ∈ rowObject (headerTexts header) row →
    ∃ cell col, (cell, col) ∈ row.eachCell ∧ headerAt header col = some h ∧ cell.value = v
  kept : ∀ cell col h, (cell, col) ∈ row.eachCell → headerAt header col = some h → h ≠ "" →
    ∃ later col', col ≤ col' ∧ (later, col') ∈ row.eachCell ∧ headerAt header col' = some h ∧
      (h, later.value) ∈ rowObject (headerTexts header) row

/-- The last filled cell stored under `h` holds what the last filled one below `h` does. -/
def SameLast (header row : WorksheetRow α) (h : String) : Prop :=
  (lastCell row fun col => columnKey (headerTexts header) col = some h).map (·.1.value) =
    (lastCell row fun col => headerAt header col = some h).map (·.1.value)

theorem columnKey_ne_empty {headers : List String} (hkey : columnKey headers col = some h) :
    h ≠ "" ∧ h ≠ "__proto__" := by
  unfold columnKey at hkey
  have := (Option.filter_eq_some_iff.1 hkey).2
  simpa using this

theorem eachCell_unique (hcell : (cell, col) ∈ row.eachCell)
    (hcell' : (cell', col) ∈ row.eachCell) :
    cell' = cell := by
  have heq := (mem_eachCell.1 hcell).2.symm.trans (mem_eachCell.1 hcell').2
  exact (Option.some.inj (Option.some.inj heq)).symm

theorem KeepsCells.sameLast (hk : KeepsCells header row) (hne : h ≠ "") :
    SameLast header row h := by
  unfold SameLast
  cases hbelow : lastCell row fun col => headerAt header col = some h with
  | none =>
    cases hstored : lastCell row fun col => columnKey (headerTexts header) col = some h with
    | none => rfl
    | some last =>
      have hentry : (h, last.1.value) ∈ rowObject (headerTexts header) row :=
        mem_rowObject.2 (by rw [hstored]; rfl)
      obtain ⟨cell, col, hcell, hat, -⟩ := hk.entry h _ hentry
      obtain ⟨last', hlast', -⟩ := exists_lastCell
        (p := fun col => headerAt header col = some h) hcell (decide_eq_true hat)
      rw [hbelow] at hlast'
      cases hlast'
  | some last =>
    obtain ⟨cell, col⟩ := last
    obtain ⟨hcell, hat⟩ := lastCell_mem hbelow
    obtain ⟨later, col', hle, hlater, hat', hentry⟩ :=
      hk.kept cell col h hcell (of_decide_eq_true hat) hne
    obtain ⟨last', hlast', hge⟩ := exists_lastCell
      (p := fun col => headerAt header col = some h) hlater (decide_eq_true hat')
    rw [hbelow] at hlast'
    cases hlast'
    obtain rfl : col = col' := le_antisymm hle hge
    rw [mem_rowObject.1 hentry, eachCell_unique hcell hlater]
    rfl

theorem keepsCells_of_sameLast (hs : ∀ h, h ≠ "" → SameLast header row h) :
    KeepsCells header row := by
  refine ⟨fun h v hentry => ?_, fun cell col h hcell hat hne => ?_⟩
  · have hstored := mem_rowObject.1 hentry
    obtain ⟨stored, hlast, -⟩ := Option.map_eq_some_iff.1 hstored
    have hkey : columnKey (headerTexts header) stored.2 = some h :=
      of_decide_eq_true (lastCell_mem hlast).2
    have hbelow := hs h (columnKey_ne_empty hkey).1
    rw [SameLast, hstored] at hbelow
    obtain ⟨⟨cell, col⟩, hlast', hv⟩ := Option.map_eq_some_iff.1 hbelow.symm
    obtain ⟨hcell, hat⟩ := lastCell_mem hlast'
    exact ⟨cell, col, hcell, of_decide_eq_true hat, hv⟩
  · obtain ⟨⟨later, col'⟩, hlast, hle⟩ := exists_lastCell
      (p := fun col => headerAt header col = some h) hcell (decide_eq_true hat)
    obtain ⟨hlater, hat'⟩ := lastCell_mem hlast
    refine ⟨later, col', hle, hlater, of_decide_eq_true hat', mem_rowObject.2 ?_⟩
    rw [hs h hne, hlast]
    rfl

/-- Which header rows keep every data row as it is: a header right of an empty cell has no
text, and none has the text that an object does not take as a key. -/
structure GapFree (header : WorksheetRow α) : Prop where
  gap : ∀ (g j : Nat) (c : WorksheetCell α),
    header[g]? = some none → g < j → header[j]? = some (some c) → c.text = ""
  proto : ∀ (j : Nat) (c : WorksheetCell α), header[j]? = some (some c) → c.text ≠ "__proto__"

theorem headerAt_succ (j : Nat) :
    headerAt header (j + 1) = some h ↔ ∃ c, header[j]? = some (some c) ∧ c.text = h := by
  unfold headerAt
  simp [Option.join_eq_some_iff]

theorem columnKey_succ (j : Nat) : columnKey (headerTexts header) (j + 1) = some h ↔
    (∃ c, (List.reduceOption header)[j]? = some c ∧ c.text = h) ∧ h ≠ "" ∧ h ≠ "__proto__" := by
  unfold columnKey
  rw [headerTexts_eq]
  simp [Option.filter_eq_some_iff]

theorem GapFree.stored_iff (hg : GapFree header) (hne : h ≠ "") (hcol : 1 ≤ col) :
    columnKey (headerTexts header) col = some h ↔ headerAt header col = some h := by
  obtain ⟨j, rfl⟩ : ∃ j, col = j + 1 := ⟨col - 1, by omega⟩
  rw [columnKey_succ, headerAt_succ]
  constructor
  · rintro ⟨⟨c, hc, htext⟩, -⟩
    obtain ⟨j', hj', rfl | ⟨hlt, g, hgj, hgap⟩⟩ := Tabular.exists_of_reduceOption_getElem? hc
    · exact ⟨c, hj', htext⟩
    · exact absurd (htext.symm.trans (hg.gap g j' c hgap hgj hj')) hne
  · rintro ⟨c, hc, htext⟩
    refine ⟨⟨c, Tabular.reduceOption_getElem?_of_no_gap hc fun g hgj hgap => ?_, htext⟩, hne,
      htext ▸ hg.proto j c hc⟩
    exact hne (htext.symm.trans (hg.gap g j c hgap hgj hc))

theorem GapFree.keepsCells (hg : GapFree header) (row : WorksheetRow α) :
    KeepsCells header row := by
  refine keepsCells_of_sameLast fun h hne => ?_
  have hfilter : (row.eachCell.filter fun e => columnKey (headerTexts header) e.2 = some h) =
      row.eachCell.filter fun e => headerAt header e.2 = some h := by
    refine List.filter_congr fun e he => ?_
    rw [decide_eq_decide]
    exact hg.stored_iff hne (mem_eachCell.1 he).1
  unfold SameLast lastCell
  rw [hfilter]

def soloRow (j : Nat) (cell : WorksheetCell α) : WorksheetRow α :=
  List.replicate j none ++ [some cell]

theorem eachCell_soloRow (j : Nat) : (soloRow j cell).eachCell = [(cell, j + 1)] := by
  have hnone : ∀ n, ((List.replicate j (none : Option (WorksheetCell α))).zipIdx n).filterMap
      (fun cell => cell.1.map fun c => (c, cell.2)) = [] := by
    induction j with
    | zero => intro n; rfl
    | succ j ih => intro n; simpa [List.replicate_succ] using ih (n + 1)
  unfold WorksheetRow.eachCell soloRow
  rw [List.zipIdx_append, List.filterMap_append, hnone]
  simp [Nat.add_comm]

theorem KeepsCells.stored_iff {j : Nat} (hk : KeepsCells header (soloRow j cell)) (hne : h ≠ "") :
    columnKey (headerTexts header) (j + 1) = some h ↔ headerAt header (j + 1) = some h := by
  have hsame := hk.sameLast hne
  unfold SameLast lastCell at hsame
  rw [eachCell_soloRow] at hsame
  by_cases hkey : columnKey (headerTexts header) (j + 1) = some h <;>
    by_cases hat : headerAt header (j + 1) = some h <;> simp_all

theorem gapFree_of_keepsCells (hk : ∀ j, ∃ cell, KeepsCells header (soloRow j cell)) :
    GapFree header := by
  constructor
  · intro g j c hgap hgj hc
    -- a header that has moved leaves one with its text further right
    induction hn : header.length - j using Nat.strong_induction_on generalizing j c with
    | _ n ih =>
      by_contra hne
      obtain ⟨cell, hkj⟩ := hk j
      have hat := (headerAt_succ j).2 ⟨c, hc, rfl⟩
      obtain ⟨⟨c', hc', htext⟩, -⟩ := (columnKey_succ j).1 ((hkj.stored_iff hne).2 hat)
      obtain ⟨j', hjj', hc''⟩ := Tabular.lt_of_reduceOption_getElem? hc' hgap hgj
      have hlt : j' < header.length := (List.getElem?_eq_some_iff.1 hc'').1
      have hempty := ih (header.length - j') (by omega) j' c' (by omega) hc'' rfl
      exact hne (htext.symm.trans hempty)
  · intro j c hc htext
    obtain ⟨cell, hkj⟩ := hk j
    have hat := (headerAt_succ j).2 ⟨c, hc, htext⟩
    have hkey := (hkj.stored_iff (by decide)).2 hat
    exact (columnKey_ne_empty hkey).2 rfl

namespace Worksheet

def dataRows (sheet : Worksheet α) : List (WorksheetRow α) :=
  (sheet.eachRow.filter (·.2 ≠ 1)).map (·.1)

theorem rawRows_eq (sheet : Worksheet α) :
    sheet.rawRows = sheet.dataRows.map (rowObject (headerTexts (sheet.getRow 1))) := by
  unfold rawRows dataRows
  induction sheet.eachRow with
  | nil => rfl
  | cons e rows ih =>
    obtain ⟨row, n⟩ := e
    by_cases hn : n = 1
    · simpa [hn] using ih
    · simpa [hn] using ih

def Faithful (sheet : Worksheet α) : Prop :=
  ∀ row ∈ sheet.dataRows, KeepsCells (sheet.getRow 1) row

theorem soloRow_mem_dataRows (j : Nat) :
    soloRow j cell ∈ (⟨[header, soloRow j cell]⟩ : Worksheet α).dataRows := by
  have hany : (soloRow j cell).any (·.isSome) = true := by simp [soloRow]
  unfold dataRows eachRow
  refine List.mem_map.2 ⟨(soloRow j cell, 2), List.mem_filter.2 ⟨List.mem_filter.2 ⟨?_, hany⟩, rfl⟩,
    rfl⟩
  simp

/-- The row objects are the rows that the import and the preview go by. -/
def RowsRead : Prop :=
  (∀ sheet : Worksheet Cell, AdminWrite.readSheet "xlsx" (some sheet.toSheet) =
    .ret (.ok ⟨headerTexts (sheet.getRow 1),
      sheet.dataRows.map (rowObject (headerTexts (sheet.getRow 1)))⟩)) ∧
  ∀ sheet : Worksheet CellValue, InvitationPreview.readSheet "xlsx" (some sheet.toValueSheet) =
    .ret (.ok ⟨headerTexts (sheet.getRow 1),
      sheet.dataRows.map (rowObject (headerTexts (sheet.getRow 1)))⟩)

theorem rowsRead : RowsRead := by
  constructor
  · intro sheet
    rw [← rawRows_eq]
    rfl
  · intro sheet
    rw [← rawRows_eq]
    rfl

/-- A file keeps its cells where, in each row and for each text, the last cell stored under
it is as the last one below it; a header row makes that sure for every file where it has
no gap. -/
theorem faithful_iff [Inhabited α] :
    (∀ sheet : Worksheet α, sheet.Faithful ↔
      ∀ row ∈ sheet.dataRows, ∀ h, h ≠ "" → SameLast (sheet.getRow 1) row h) ∧
      (∀ header : WorksheetRow α,
        (∀ rows, (⟨header :: rows⟩ : Worksheet α).Faithful) ↔ GapFree header) ∧ RowsRead := by
  refine ⟨?_, ?_, rowsRead⟩
  · intro sheet
    exact ⟨fun hf row hrow h hne => (hf row hrow).sameLast hne,
      fun hs row hrow => keepsCells_of_sameLast (hs row hrow)⟩
  · intro header
    constructor
    · intro hf
      refine gapFree_of_keepsCells fun j => ⟨⟨"", default⟩, ?_⟩
      exact hf [soloRow j _] _ (soloRow_mem_dataRows j)
    · intro hg rows row _
      exact hg.keepsCells row

section Example

def gapSheet : Worksheet String where
  rows :=
    [[some ⟨"Vorname", "Vorname"⟩, none, some ⟨"Nachname", "Nachname"⟩,
        some ⟨"Telefon", "Telefon"⟩],
      [some ⟨"Ada", "Ada"⟩, none, some ⟨"Lovelace", "Lovelace"⟩, some ⟨"030", "030"⟩]]

example : gapSheet.rawRows = [[("Vorname", "Ada"), ("Telefon", "Lovelace")]] := by decide

theorem gapSheet_not_faithful : ¬ gapSheet.Faithful := by
  intro hf
  have hrow : [some ⟨"Ada", "Ada"⟩, none, some ⟨"Lovelace", "Lovelace"⟩, some ⟨"030", "030"⟩] ∈
      gapSheet.dataRows := by decide
  have hsame := (hf _ hrow).sameLast (h := "Telefon") (by decide)
  revert hsame
  unfold SameLast
  decide

end Example

end Worksheet
end InvitationService

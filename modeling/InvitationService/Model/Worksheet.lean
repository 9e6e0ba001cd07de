import InvitationService.Lib.Tabular
import InvitationService.Model.InvitationPreview

namespace InvitationService

/-- A cell with content: its `text` and its `value`. -/
structure WorksheetCell (α : Type) where
  text : String
  value : α
  deriving DecidableEq, Repr

/-- The cells of a row from the first column on, some of them empty. -/
abbrev WorksheetRow (α : Type) := List (Option (WorksheetCell α))

structure Worksheet (α : Type) where
  rows : List (WorksheetRow α)
  deriving DecidableEq, Repr

variable {α : Type}

/-- `eachCell`: the cells with content, with their column numbers. -/
def WorksheetRow.eachCell (row : WorksheetRow α) : List (WorksheetCell α × Nat) :=
  (row.zipIdx 1).filterMap fun cell => cell.1.map fun c => (c, cell.2)

namespace Worksheet

def getRow (sheet : Worksheet α) (rowNumber : Nat) : WorksheetRow α :=
  (sheet.rows[rowNumber - 1]?).getD []

/-- `eachRow`: the rows with content, with their row numbers. -/
def eachRow (sheet : Worksheet α) : List (WorksheetRow α × Nat) :=
  (sheet.rows.zipIdx 1).filter fun (row, _) => row.any (·.isSome)

/-- The headers are pushed one after the other. -/
def headerTexts (header : WorksheetRow α) : List String := header.eachCell.map (·.1.text)

/-- The key under which a column is stored.  An assignment to `__proto__` makes no entry. -/
def columnKey (headers : List String) (colNumber : Nat) : Option String :=
  headers[colNumber - 1]?.filter fun key => key ≠ "" && key ≠ "__proto__"

/-- The object of a data row, in the order of its assignments.  JavaScript lists numeric
keys first; these are mapped to no field. -/
def rowObject (headers : List String) (row : WorksheetRow α) : List (String × α) :=
  Tabular.assignAll <| row.eachCell.filterMap fun cell =>
    (columnKey headers cell.2).map fun key => (key, cell.1.value)

def rawRows (sheet : Worksheet α) : List (List (String × α)) :=
  sheet.eachRow.filterMap fun (row, rowNumber) =>
    if rowNumber = 1 then none else some (rowObject (headerTexts (sheet.getRow 1)) row)

/-- What the XLSX branch of the import reads of the first worksheet. -/
def toSheet (sheet : Worksheet Cell) : Sheet := ⟨headerTexts (sheet.getRow 1), sheet.rawRows⟩

/-- What that of the preview reads. -/
def toValueSheet (sheet : Worksheet CellValue) : ValueSheet :=
  ⟨headerTexts (sheet.getRow 1), sheet.rawRows⟩

end Worksheet
end InvitationService

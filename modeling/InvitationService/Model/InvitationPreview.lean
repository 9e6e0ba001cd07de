import InvitationService.Model.AdminWrite

namespace InvitationService

open Query

inductive CellKind
  | string
  | number
  | boolean
  | date (iso : String)
  | other
  deriving DecidableEq, Repr

/-- A parsed cell with the kind of its value, which only the preview asks for. -/
structure CellValue extends Cell where
  kind : CellKind
  deriving DecidableEq, Repr

/-- A parsed file with the values of its cells. -/
structure ValueSheet where
  headers : List String
  rawRows : List (List (String × CellValue))
  deriving DecidableEq, Repr

/-- The file as the import reads it. -/
def ValueSheet.toSheet (sheet : ValueSheet) : Sheet where
  headers := sheet.headers
  rawRows := sheet.rawRows.map fun row => row.map fun (key, value) => (key, value.toCell)

abbrev ValueRow := CanonicalField → Option CellValue

def ValueRow.toCells (row : ValueRow) : MappedRow := fun field => (row field).map (·.toCell)

structure InvitationPreviewResult where
  headers : List String
  mapping : String → Option CanonicalField
  confidence : String → Option Nat
  rows : List ValueRow
  errors : List String
  duplicates : List Nat
  total : Nat

def toSearchString : Option CellValue → String
  | none => ""
  | some value => match value.kind with
    | .string | .number | .boolean => value.string
    | .date iso => iso
    | .other => ""

namespace InvitationPreview

/-- `applyMapping`, with the kinds of the values. -/
def applyMapping (mapping : String → Option CanonicalField) (row : List (String × CellValue)) :
    ValueRow := fun field =>
  (row.reverse.find? fun (key, _) => mapping key = some field).map (·.2)

def rowErrors (i : Nat) (row : ValueRow) : List String :=
  [CanonicalField.firstName, .lastName].filterMap fun field =>
    if (row field).any (·.truthy) then none
    else some ("Row " ++ toString (i + 2) ++ ": Missing " ++ field.name)

def readSheet (type : String) (sheet : Option ValueSheet) : Query ValueSheet :=
  if type = "csv" then
    let rows := (sheet.map (·.rawRows)).getD []
    return ⟨(rows.headD []).map (·.1), rows⟩
  else if type = "xlsx" then
    match sheet with
    | some s => return s
    | none => throw (.invitationValidation "Workbook contains no worksheet")
  else return ⟨[], []⟩

def findFirstInvitation (p : Invitation → Bool) : Query (Option Invitation) :=
  Resumption.Block.call (.dependency .database) fun w =>
    (.ok (w.db.invitations.select p).head?, w)

/-- The rows an invitation of the event has the names of. -/
def findDuplicates (eventId : EventId) : List (ValueRow × Nat) → Program (List Nat)
  | [] => return []
  | (r, i) :: rows => do
    let found ← findFirstInvitation fun invitation =>
      invitation.eventId = eventId && invitation.firstName = toSearchString (r .firstName) &&
        invitation.lastName = toSearchString (r .lastName)
    let duplicates ← findDuplicates eventId rows
    return if found.isSome then i :: duplicates else duplicates

def preview (cfg : Config) (eventId : EventId) (type : String) (sheet : Option ValueSheet) :
    Program InvitationPreviewResult := do
  (Resumption.Block.call (.dependency .storage) fun w => (.ok (), w) : Query Unit)
  let ⟨headers, rows⟩ ← readSheet type sheet
  let mappedRows := rows.map (applyMapping (mapColumns cfg headers))
  let duplicates ← findDuplicates eventId mappedRows.zipIdx
  return {
    headers
    mapping := mapColumns cfg headers
    confidence := fun header =>
      if header ∈ headers then some (mapColumn cfg header).bestScore else none
    rows := mappedRows.take 20
    errors := (mappedRows.zipIdx.map fun (row, i) => rowErrors i row).flatten
    duplicates
    total := mappedRows.length }

end InvitationPreview
end InvitationService

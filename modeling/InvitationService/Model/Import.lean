import InvitationService.Model.Database

namespace InvitationService

/-! The columns of an uploaded file: `column-mapper.ts` and `apply-mapping.ts`. -/

inductive CanonicalField | firstName | lastName | phone | email | maxPlusOnes
  deriving DecidableEq, Repr

def CanonicalField.name : CanonicalField → String
  | .firstName => "firstName"
  | .lastName => "lastName"
  | .phone => "phone"
  | .email => "email"
  | .maxPlusOnes => "maxPlusOnes"

/-- `ALIASES`, in the order of the source. -/
def columnAliases : List (CanonicalField × List String) :=
  [(.firstName, ["firstname", "first name", "vorname", "givenname"]),
    (.lastName, ["lastname", "last name", "nachname", "surname"]),
    (.phone, ["phone", "telefon", "mobile", "handy", "phonenumber"]),
    (.email, ["email", "mail", "e-mail"]),
    (.maxPlusOnes, ["maxplusones", "plusones", "guests", "invitees"])]

def normalizeHeader (cfg : Config) (input : String) : List Char :=
  (cfg.toLowerCase (String.ofList (input.toList.filter fun c => !isSpace c))).toList

def includes (sub : List Char) : List Char → Bool
  | [] => sub.isEmpty
  | c :: cs => sub.isPrefixOf (c :: cs) || includes sub cs

/-- The best match of a header so far, and its confidence in tenths. -/
structure ColumnMatch where
  bestMatch : Option CanonicalField := none
  bestScore : Nat := 0
  deriving DecidableEq, Repr

def matchName (cfg : Config) (normalized : List Char) (field : CanonicalField) (m : ColumnMatch)
    (name : String) : ColumnMatch :=
  let m := if normalized = normalizeHeader cfg name then ⟨some field, 10⟩ else m
  if includes (normalizeHeader cfg name) normalized then ⟨some field, max m.bestScore 7⟩ else m

def mapColumn (cfg : Config) (header : String) : ColumnMatch :=
  columnAliases.foldl
    (fun m (field, aliases) => aliases.foldl (matchName cfg (normalizeHeader cfg header) field) m)
    {}

/-- `mapColumns`: the mapping as a function of the header. -/
def mapColumns (cfg : Config) (headers : List String) (header : String) :
    Option CanonicalField :=
  if header ∈ headers then (mapColumn cfg header).bestMatch else none

abbrev MappedRow := CanonicalField → Option Cell

/-- A mapped row: the last column mapped to a field gives its value. -/
def applyMapping (mapping : String → Option CanonicalField) (row : List (String × Cell))
    (field : CanonicalField) : Option Cell :=
  (row.reverse.find? fun (key, _) => mapping key = some field).map (·.2)

structure ImportInvitationsResult where
  total : Nat
  imported : Nat
  skipped : Nat
  duplicates : List String
  errors : List String
  deriving DecidableEq, Repr

/-- The validation of the row with index `i`. -/
def rowErrors (i : Nat) (row : CanonicalField → Option Cell) : List String :=
  [CanonicalField.firstName, .lastName].filterMap fun field =>
    if (row field).any (·.truthy) then none
    else some ("Row " ++ toString (i + 2) ++ ": Missing \"" ++ field.name ++ "\"")

def cellText (cell : Option Cell) : String := trim ((cell.map (·.string)).getD "undefined")

def nameKey (firstName lastName : String) : String := firstName ++ "-" ++ lastName

end InvitationService

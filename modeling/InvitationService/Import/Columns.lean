import InvitationService.Lib.LatestWins
import InvitationService.Lifecycle.Runs

namespace InvitationService

variable {cfg : Config} {header name : String} {field field' : CanonicalField}
  {row pre post : List (String × Cell)} {cell : Cell}

/-- `toLowerCase` leaves an ASCII text without capitals as it is. -/
def Config.KeepsLowerCase (cfg : Config) : Prop :=
  ∀ s : String, (∀ c ∈ s.toList, c.toNat < 128 ∧ c.isUpper = false) → cfg.toLowerCase s = s

def CanonicalField.aliases (field : CanonicalField) : List String :=
  (columnAliases.filter (·.1 = field)).flatMap (·.2)

/-- The header is an alias of the field, up to white space and case. -/
def MatchesExactly (cfg : Config) (header : String) (field : CanonicalField) : Prop :=
  ∃ name ∈ field.aliases, normalizeHeader cfg header = normalizeHeader cfg name

def containsOne (cfg : Config) (header : String) (names : List String) : Bool :=
  names.any fun name => includes (normalizeHeader cfg name) (normalizeHeader cfg header)

/-- The last field, in the order of the aliases, one of whose aliases the header contains. -/
def containedField (cfg : Config) (header : String) : Option CanonicalField :=
  (columnAliases.filter fun entry => containsOne cfg header entry.2).getLast?.map (·.1)

theorem mem_aliases : name ∈ field.aliases ↔ ∃ names, (field, names) ∈ columnAliases ∧
    name ∈ names := by
  simp only [CanonicalField.aliases, List.mem_flatMap, List.mem_filter, decide_eq_true_eq]
  constructor
  · rintro ⟨⟨field', names⟩, ⟨hentry, rfl⟩, hname⟩
    exact ⟨names, hentry, hname⟩
  · rintro ⟨names, hentry, hname⟩
    exact ⟨(field, names), ⟨hentry, rfl⟩, hname⟩

theorem includes_self (cs : List Char) : includes cs cs = true := by
  cases cs with
  | nil => rfl
  | cons c cs => simp [includes, List.isPrefixOf_iff_prefix]

theorem matchName_bestMatch (normalized : List Char) (m : ColumnMatch) :
    (matchName cfg normalized field m name).bestMatch =
      if includes (normalizeHeader cfg name) normalized then some field else m.bestMatch := by
  unfold matchName
  by_cases heq : normalized = normalizeHeader cfg name
  · simp [heq, includes_self]
  · simp only [heq, if_false]
    split <;> rfl

theorem matchNames_bestMatch (names : List String) (m : ColumnMatch) :
    (names.foldl (matchName cfg (normalizeHeader cfg header) field) m).bestMatch =
      if containsOne cfg header names then some field else m.bestMatch := by
  induction names generalizing m with
  | nil => simp [containsOne]
  | cons name names ih =>
    rw [List.foldl_cons, ih, matchName_bestMatch]
    unfold containsOne
    rw [List.any_cons]
    cases names.any fun name => includes (normalizeHeader cfg name) (normalizeHeader cfg header)
      <;> simp

def overwrites (cfg : Config) (header : String) (entry : CanonicalField × List String) :
    Option (Option CanonicalField) :=
  if containsOne cfg header entry.2 then some (some entry.1) else none

theorem matchFields_bestMatch (entries : List (CanonicalField × List String)) (m : ColumnMatch) :
    (entries.foldl (fun m (field, names) =>
        names.foldl (matchName cfg (normalizeHeader cfg header) field) m) m).bestMatch =
      entries.foldl (fun b entry => (overwrites cfg header entry).getD b) m.bestMatch := by
  induction entries generalizing m with
  | nil => rfl
  | cons entry entries ih =>
    rw [List.foldl_cons, List.foldl_cons, ih, matchNames_bestMatch]
    unfold overwrites
    cases containsOne cfg header entry.2 <;> rfl

/-- An exact match is a containment too, so the last containment decides. -/
theorem mapColumn_bestMatch : (mapColumn cfg header).bestMatch = containedField cfg header := by
  have hisSome : ∀ entry : CanonicalField × List String,
      (overwrites cfg header entry).isSome = containsOne cfg header entry.2 := by
    intro entry
    unfold overwrites
    cases containsOne cfg header entry.2 <;> rfl
  rw [mapColumn, matchFields_bestMatch, LatestWins.foldl_overwrite, containedField]
  simp only [hisSome]
  cases hlast : (columnAliases.filter fun entry => containsOne cfg header entry.2).getLast? with
  | none => rfl
  | some entry =>
    have hmem := List.mem_filter.1 (List.mem_of_getLast? hlast)
    simp [overwrites, hmem.2]

theorem mapColumns_of_mem {headers : List String} (h : header ∈ headers) :
    mapColumns cfg headers header = containedField cfg header := by
  rw [mapColumns, if_pos h, mapColumn_bestMatch]

theorem matchName_bestScore (normalized : List Char) (m : ColumnMatch) :
    (matchName cfg normalized field m name).bestScore = 10 ↔
      normalized = normalizeHeader cfg name ∨ m.bestScore = 10 := by
  unfold matchName
  by_cases heq : normalized = normalizeHeader cfg name
  · simp [heq, includes_self]
  · simp only [heq, if_false, false_or]
    split
    · dsimp only
      omega
    · rfl

theorem matchNames_bestScore (normalized : List Char) (names : List String) (m : ColumnMatch) :
    (names.foldl (matchName cfg normalized field) m).bestScore = 10 ↔
      (∃ name ∈ names, normalized = normalizeHeader cfg name) ∨ m.bestScore = 10 := by
  induction names generalizing m with
  | nil => simp
  | cons name names ih =>
    rw [List.foldl_cons, ih, matchName_bestScore]
    simp only [List.mem_cons, exists_eq_or_imp]
    rw [or_left_comm, or_assoc]

theorem matchFields_bestScore (normalized : List Char)
    (entries : List (CanonicalField × List String)) (m : ColumnMatch) :
    (entries.foldl (fun m (field, names) =>
        names.foldl (matchName cfg normalized field) m) m).bestScore = 10 ↔
      (∃ entry ∈ entries, ∃ name ∈ entry.2, normalized = normalizeHeader cfg name) ∨
        m.bestScore = 10 := by
  induction entries generalizing m with
  | nil => simp
  | cons entry entries ih =>
    rw [List.foldl_cons, ih, matchNames_bestScore]
    simp only [List.mem_cons, exists_eq_or_imp]
    rw [or_left_comm, or_assoc]

theorem mapColumn_bestScore :
    (mapColumn cfg header).bestScore = 10 ↔ ∃ field, MatchesExactly cfg header field := by
  rw [mapColumn, matchFields_bestScore]
  constructor
  · rintro (⟨entry, hentry, name, hname, heq⟩ | h)
    · exact ⟨entry.1, name, mem_aliases.2 ⟨entry.2, hentry, hname⟩, heq⟩
    · cases h
  · rintro ⟨field, name, hname, heq⟩
    obtain ⟨names, hentry, hname⟩ := mem_aliases.1 hname
    exact .inl ⟨(field, names), hentry, name, hname, heq⟩

def plainHeader (name : String) : List Char := name.toList.filter fun c => !isSpace c

theorem plainHeader_ascii {entry : CanonicalField × List String} (hentry : entry ∈ columnAliases)
    (hname : name ∈ entry.2) : ∀ c ∈ plainHeader name, c.toNat < 128 ∧ c.isUpper = false := by
  have hall : (columnAliases.all fun entry => entry.2.all fun name =>
      (plainHeader name).all fun c => c.toNat < 128 && !c.isUpper) = true := by decide
  intro c hc
  have hc := List.all_eq_true.1 (List.all_eq_true.1 (List.all_eq_true.1 hall _ hentry) _ hname) c hc
  simpa using hc

theorem normalizeHeader_of_mem (hcfg : cfg.KeepsLowerCase)
    {entry : CanonicalField × List String} (hentry : entry ∈ columnAliases)
    (hname : name ∈ entry.2) : normalizeHeader cfg name = plainHeader name := by
  have hkeep := hcfg (String.ofList (plainHeader name)) fun c hc =>
    plainHeader_ascii hentry hname c (by rwa [String.toList_ofList] at hc)
  rw [normalizeHeader, ← plainHeader, hkeep, String.toList_ofList]

theorem containsOne_of_mem (hcfg : cfg.KeepsLowerCase) {entry : CanonicalField × List String}
    (hentry : entry ∈ columnAliases) :
    containsOne cfg header entry.2 =
      entry.2.any fun name => includes (plainHeader name) (normalizeHeader cfg header) := by
  rw [containsOne, Bool.eq_iff_iff, List.any_eq_true, List.any_eq_true]
  refine exists_congr fun name => and_congr_right fun hname => ?_
  rw [normalizeHeader_of_mem hcfg hentry hname]

theorem alias_falls_to_its_field : ∀ entry ∈ columnAliases, ∀ name ∈ entry.2,
    (columnAliases.filter fun entry' =>
      entry'.2.any fun name' => includes (plainHeader name')
        (plainHeader name)).getLast?.map (·.1) =
        some entry.1 := by
  decide

theorem MatchesExactly.containedField (hcfg : cfg.KeepsLowerCase)
    (h : MatchesExactly cfg header field) :
    InvitationService.containedField cfg header = some field := by
  obtain ⟨name, hname, heq⟩ := h
  obtain ⟨names, hentry, hname⟩ := mem_aliases.1 hname
  rw [normalizeHeader_of_mem hcfg hentry hname] at heq
  rw [← alias_falls_to_its_field (field, names) hentry name hname]
  unfold InvitationService.containedField
  congr 2
  refine List.filter_congr fun entry' hentry' => ?_
  rw [containsOne_of_mem hcfg hentry', heq]

theorem MatchesExactly.unique (hcfg : cfg.KeepsLowerCase) (h : MatchesExactly cfg header field)
    (h' : MatchesExactly cfg header field') : field' = field :=
  Option.some.inj ((h'.containedField hcfg).symm.trans (h.containedField hcfg))

/-- The row holds, under an exactly matching header, what the field is given. -/
def GivesExact (cfg : Config) (headers : List String) (row : List (String × Cell))
    (field : CanonicalField) : Prop :=
  (∃ entry ∈ row, MatchesExactly cfg entry.1 field) →
    ∃ entry ∈ row, MatchesExactly cfg entry.1 field ∧
      applyMapping (mapColumns cfg headers) row field = some entry.2

/-- The last header that falls to the field holds a value that no exactly matching one
holds, although there is an exactly matching one. -/
def Overridden (cfg : Config) (row : List (String × Cell)) (field : CanonicalField) : Prop :=
  (∃ entry ∈ row, MatchesExactly cfg entry.1 field) ∧
    ∃ pre last post, row = pre ++ last :: post ∧ containedField cfg last.1 = some field ∧
      (∀ entry ∈ post, containedField cfg entry.1 ≠ some field) ∧
      ∀ entry ∈ row, MatchesExactly cfg entry.1 field → entry.2 ≠ last.2

theorem applyMapping_of_last {headers : List String} (hrow : ∀ entry ∈ row, entry.1 ∈ headers)
    {last : String × Cell} (heq : row = pre ++ last :: post)
    (hlast : containedField cfg last.1 = some field)
    (hpost : ∀ entry ∈ post, containedField cfg entry.1 ≠ some field) :
    applyMapping (mapColumns cfg headers) row field = some last.2 := by
  have hmap : ∀ entry ∈ row, mapColumns cfg headers entry.1 = containedField cfg entry.1 :=
    fun entry hentry => mapColumns_of_mem (hrow entry hentry)
  subst heq
  have hfind : ((pre ++ last :: post).reverse.find? fun entry =>
      mapColumns cfg headers entry.1 = some field) = some last := by
    rw [List.find?_eq_some_iff_append]
    refine ⟨?_, post.reverse, pre.reverse, by simp, fun entry hentry => ?_⟩
    · simp [hmap last (by simp), hlast]
    · have hentry := List.mem_reverse.1 hentry
      simp [hmap entry (by simp [hentry]), hpost entry hentry]
  rw [applyMapping, hfind]
  rfl

theorem exists_last (h : ∃ entry ∈ row, containedField cfg entry.1 = some field) :
    ∃ pre last post, row = pre ++ last :: post ∧ containedField cfg last.1 = some field ∧
      ∀ entry ∈ post, containedField cfg entry.1 ≠ some field := by
  obtain ⟨entry, hentry, hfield⟩ := h
  have hsome : (row.reverse.find? fun entry =>
      decide (containedField cfg entry.1 = some field)).isSome :=
    List.find?_isSome.2 ⟨entry, List.mem_reverse.2 hentry, by simpa using hfield⟩
  obtain ⟨last, hlast⟩ := Option.isSome_iff_exists.1 hsome
  obtain ⟨hfield, post, pre, heq, hpost⟩ := List.find?_eq_some_iff_append.1 hlast
  refine ⟨pre.reverse, last, post.reverse, ?_, by simpa using hfield, fun entry hentry => ?_⟩
  · rw [← List.reverse_reverse row, heq]
    simp
  · simpa using hpost entry (List.mem_reverse.1 hentry)

/-- The exact headers win unless a header that merely contains an alias comes last. -/
theorem givesExact_iff (hcfg : cfg.KeepsLowerCase) {headers : List String}
    (hrow : ∀ entry ∈ row, entry.1 ∈ headers) :
    GivesExact cfg headers row field ↔ ¬ Overridden cfg row field := by
  constructor
  · rintro h ⟨hexact, pre, last, post, heq, hlast, hpost, hne⟩
    obtain ⟨entry, hentry, hmatch, happly⟩ := h hexact
    rw [applyMapping_of_last hrow heq hlast hpost] at happly
    exact hne entry hentry hmatch (Option.some.inj happly).symm
  · intro h hexact
    obtain ⟨exact, hmem, hmatch⟩ := hexact
    obtain ⟨pre, last, post, heq, hlast, hpost⟩ :=
      exists_last ⟨exact, hmem, hmatch.containedField hcfg⟩
    by_contra hnone
    push Not at hnone
    refine h ⟨⟨exact, hmem, hmatch⟩, pre, last, post, heq, hlast, hpost,
      fun entry hentry hentrymatch hvalue => ?_⟩
    refine hnone entry hentry hentrymatch ?_
    rw [applyMapping_of_last hrow heq hlast hpost, hvalue]

/-- A single exact header goes to its field; a row of them keeps to them unless the last
header of a field is not exact. -/
theorem exact_headers_iff (hcfg : cfg.KeepsLowerCase) (headers : List String)
    (row : List (String × Cell)) (hrow : ∀ entry ∈ row, entry.1 ∈ headers) :
    (∀ field, GivesExact cfg headers row field ↔ ¬ Overridden cfg row field) ∧
      ∀ header ∈ headers, (mapColumn cfg header).bestScore = 10 →
        ∃ field, MatchesExactly cfg header field ∧
          mapColumns cfg headers header = some field ∧
          ∀ field', MatchesExactly cfg header field' → field' = field := by
  refine ⟨fun field => givesExact_iff hcfg hrow, fun header hheader hscore => ?_⟩
  obtain ⟨field, hfield⟩ := mapColumn_bestScore.1 hscore
  refine ⟨field, hfield, ?_, fun field' hfield' => hfield.unique hcfg hfield'⟩
  rw [mapColumns_of_mem hheader]
  exact hfield.containedField hcfg

section Example

def textCell (s : String) : Cell := ⟨s, s ≠ "", none⟩

def companionHeaders : List String := ["vorname", "nachname", "begleitung vorname"]

def companionRow : List (String × Cell) :=
  [("vorname", textCell "Ada"), ("nachname", textCell "Lovelace"),
    ("begleitung vorname", textCell "William")]

theorem plainConfig_keepsLowerCase : plainConfig.KeepsLowerCase := fun _ _ => rfl

theorem exact_headers_iff_companion :
    (∀ field, GivesExact plainConfig companionHeaders companionRow field ↔
        ¬ Overridden plainConfig companionRow field) ∧
      ∃ field, MatchesExactly plainConfig "nachname" field ∧
        mapColumns plainConfig companionHeaders "nachname" = some field ∧
        ∀ field', MatchesExactly plainConfig "nachname" field' → field' = field :=
  ⟨(exact_headers_iff plainConfig_keepsLowerCase companionHeaders companionRow (by decide)).1,
    (exact_headers_iff plainConfig_keepsLowerCase companionHeaders companionRow (by decide)).2
      "nachname" (by decide) (by decide)⟩

/-- The guest gets the companion's first name. -/
theorem not_givesExact_companion :
    ¬ GivesExact plainConfig companionHeaders companionRow .firstName := by
  have hexact : MatchesExactly plainConfig "vorname" .firstName := ⟨"vorname", by decide, rfl⟩
  intro h
  obtain ⟨entry, hentry, hmatch, happly⟩ := h ⟨_, List.mem_cons_self .., hexact⟩
  have hgiven : applyMapping (mapColumns plainConfig companionHeaders) companionRow .firstName =
      some (textCell "William") := by decide
  have hnot : ∀ entry ∈ companionRow, entry.2 = textCell "William" →
      ¬ ∃ name ∈ CanonicalField.firstName.aliases,
        normalizeHeader plainConfig entry.1 = normalizeHeader plainConfig name := by decide
  rw [hgiven] at happly
  exact hnot entry hentry (Option.some.inj happly).symm hmatch

end Example

end InvitationService

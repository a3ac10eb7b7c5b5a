import SmartMedia.Library.Xml
import SmartMedia.Media.SmartNames
import SmartMedia.Media.StrmAgreement

/-!
# The NFO of a scraped file

`_build_simple_nfo` and `_xml_escape` of `app/services/media/scrape.py`. A document that was built
has the elements of its media type and no others, and their texts are the values of the item.
-/
namespace SmartMedia.Scrape
open Media PythonText

section Escaping

/-- `str.replace` of a character. -/
def replaceChar (old : Char) (new value : Path) : Path :=
  value.flatMap fun c => if c = old then new else [c]

/-- `_xml_escape` -/
def xmlEscape (value : Path) : Path :=
  let value := replaceChar '&' "&amp;".toList value
  let value := replaceChar '<' "&lt;".toList value
  let value := replaceChar '>' "&gt;".toList value
  let value := replaceChar '"' "&quot;".toList value
  replaceChar '\'' "&apos;".toList value

theorem replaceChar_append (old : Char) (new s t : Path) :
    replaceChar old new (s ++ t) = replaceChar old new s ++ replaceChar old new t :=
  List.flatMap_append

theorem xmlEscape_append (s t : Path) : xmlEscape (s ++ t) = xmlEscape s ++ xmlEscape t := by
  simp only [xmlEscape, replaceChar_append]

theorem replaceChar_of_ne {old c : Char} (new : Path) (h : c ≠ old) :
    replaceChar old new [c] = [c] := by
  rw [replaceChar, List.flatMap_singleton, if_neg h]

/-- The replacements that come later find nothing to replace in an earlier one. -/
theorem xmlEscape_singleton (c : Char) : xmlEscape [c] = Xml.escapeChar c := by
  by_cases hamp : c = '&'
  · rw [hamp]
    decide
  by_cases hlt : c = '<'
  · rw [hlt]
    decide
  by_cases hgt : c = '>'
  · rw [hgt]
    decide
  by_cases hquot : c = '"'
  · rw [hquot]
    decide
  by_cases hapos : c = '\''
  · rw [hapos]
    decide
  have hnone : Xml.predefined.find? (·.2 = c) = none := by
    simp [Xml.predefined, Ne.symm hamp, Ne.symm hlt, Ne.symm hgt, Ne.symm hquot, Ne.symm hapos]
  rw [Xml.escapeChar, hnone, xmlEscape]
  simp only [replaceChar_of_ne _ hamp, replaceChar_of_ne _ hlt, replaceChar_of_ne _ hgt,
    replaceChar_of_ne _ hquot, replaceChar_of_ne _ hapos]

/-- The replacements in turn are one replacement of all. -/
theorem xmlEscape_eq_escape (value : Path) : xmlEscape value = Xml.escape value := by
  induction value with
  | nil => rfl
  | cons c value ih =>
      rw [← List.singleton_append, xmlEscape_append, xmlEscape_singleton, ih, Xml.escape, Xml.escape,
        List.flatMap_append, List.flatMap_singleton]

end Escaping

section Items

/-- A value in a column of an item. -/
inductive FieldValue
  | text (value : Path)
  | int (value : ℤ)
  deriving DecidableEq, Repr

namespace FieldValue

def str : FieldValue → Path
  | text value => value
  | int value => SmartNames.formatInt 0 value

def isTruthy : FieldValue → Bool
  | text value => value ≠ []
  | int value => value ≠ 0

/-- A text has characters of XML only. -/
def isLegal : FieldValue → Bool
  | text value => value.all Xml.isChar
  | int _ => true

end FieldValue

/-- What of a `ScrapeItem` its NFO is made of. -/
structure NfoItem where
  fileName : Path
  mediaType : Option Path := none
  title : Option FieldValue := none
  year : Option FieldValue := none
  tmdbId : Option FieldValue := none
  season : Option FieldValue := none
  episode : Option FieldValue := none
  deriving DecidableEq, Repr

variable (item : NfoItem)

/-- `item.title or os.path.splitext(item.file_name)[0]`, as a text. -/
def NfoItem.shownTitle : Path :=
  match item.title.filter (·.isTruthy) with
  | some title => title.str
  | none => (splitext item.fileName).1

/-- An element on a line of the document. -/
def tag (name text : Path) : Path := '<' :: name ++ ['>'] ++ text ++ ('<' :: '/' :: name ++ ['>'])

/-- The element of a value, or nothing. -/
def optionalTag (name : Path) (value : Option FieldValue) : Path :=
  match value with
  | some value => tag name (xmlEscape value.str)
  | none => []

/-- What the two templates share: the declaration, and the root with its tags one in a line. -/
def nfoTemplate (root : Path) (tags : List Path) : Path :=
  "<?xml version=\"1.0\" encoding=\"UTF-8\"?>\n".toList ++
    ('<' :: root ++ ['>', '\n']) ++ (tags.flatMap fun t => ' ' :: ' ' :: t ++ ['\n']) ++
    ('<' :: '/' :: root ++ ['>', '\n'])

/-- `_build_simple_nfo` -/
def buildSimpleNfo : Path :=
  let titleTag := tag "title".toList (xmlEscape item.shownTitle)
  let yearTag := optionalTag "year".toList (item.year.filter (·.isTruthy))
  let tmdbTag := optionalTag "tmdbid".toList (item.tmdbId.filter (·.isTruthy))
  if item.mediaType = some "tv".toList then
    let seasonTag := optionalTag "season".toList item.season
    let episodeTag := optionalTag "episode".toList item.episode
    nfoTemplate "episodedetails".toList [titleTag, seasonTag, episodeTag, tmdbTag]
  else nfoTemplate "movie".toList [titleTag, yearTag, tmdbTag]

end Items

section Structure

/-- A line of the document: an element and its text, or nothing. -/
abbrev NfoLine := Option (Path × Path)

variable (item : NfoItem)

/-- The element that the document of an item is. -/
def NfoItem.root : Path :=
  if item.mediaType = some "tv".toList then "episodedetails".toList else "movie".toList

def NfoItem.lines : List NfoLine :=
  let line (name : Path) (value : Option FieldValue) : NfoLine :=
    value.map fun value => (name, value.str)
  let titleLine := some ("title".toList, item.shownTitle)
  let tmdbLine := line "tmdbid".toList (item.tmdbId.filter (·.isTruthy))
  if item.mediaType = some "tv".toList then
    [titleLine, line "season".toList item.season, line "episode".toList item.episode, tmdbLine]
  else [titleLine, line "year".toList (item.year.filter (·.isTruthy)), tmdbLine]

/-- The elements in that element, with what each one is the text of. -/
def NfoItem.fields : List (Path × Path) := item.lines.filterMap id

/-- The values in the columns. -/
def NfoItem.values : List FieldValue :=
  [item.title, item.year, item.tmdbId, item.season, item.episode].filterMap id

def lineTag : NfoLine → Path
  | some (name, value) => tag name (xmlEscape value)
  | none => []

theorem optionalTag_eq (name : Path) (value : Option FieldValue) :
    optionalTag name value = lineTag (value.map fun value => (name, value.str)) := by
  cases value with
  | none => rfl
  | some value => rfl

theorem buildSimpleNfo_eq :
    buildSimpleNfo item = nfoTemplate item.root (item.lines.map lineTag) := by
  rw [buildSimpleNfo, NfoItem.root, NfoItem.lines]
  simp only [optionalTag_eq]
  split_ifs with htv
  · rfl
  · rfl

end Structure

section Trees
variable {root : Path} {lines : List NfoLine}

/-- The lines as a tree. -/
def lineContents : List NfoLine → Xml.Content
  | [] => .nil
  | none :: lines => (lineContents lines).prepend [' ', ' ', '\n']
  | some (name, value) :: lines =>
      (Xml.Content.element name (Xml.Content.nil.prepend (Xml.escape value))
        ((lineContents lines).prepend ['\n'])).prepend [' ', ' ']

/-- The document behind its declaration. -/
def nfoContents (root : Path) (lines : List NfoLine) : Xml.Content :=
  (Xml.Content.element root ((lineContents lines).prepend ['\n'])
    (Xml.Content.nil.prepend ['\n'])).prepend ['\n']

theorem render_lineContents (lines : List NfoLine) :
    (lineContents lines).render =
      (lines.map lineTag).flatMap fun t => ' ' :: ' ' :: t ++ ['\n'] := by
  induction lines with
  | nil => rfl
  | cons line lines ih =>
      rw [List.map_cons, List.flatMap_cons, ← ih]
      cases line with
      | none =>
          rw [lineContents, Xml.Content.render_prepend]
          rfl
      | some field =>
          simp only [lineContents, Xml.Content.render_prepend, Xml.Content.render_element, lineTag,
            tag, xmlEscape_eq_escape, Xml.Content.render_nil, List.append_assoc, List.cons_append,
            List.nil_append]

theorem render_nfoContents (root : Path) (lines : List NfoLine) :
    (nfoContents root lines).render =
      '\n' :: ('<' :: root ++ ['>', '\n']) ++
        ((lines.map lineTag).flatMap fun t => ' ' :: ' ' :: t ++ ['\n']) ++
        ('<' :: '/' :: root ++ ['>', '\n']) := by
  rw [← render_lineContents]
  simp only [nfoContents, Xml.Content.render_prepend, Xml.Content.render_element,
    Xml.Content.render_nil, List.append_assoc, List.cons_append, List.nil_append]

theorem nfoTemplate_eq (root : Path) (lines : List NfoLine) :
    nfoTemplate root (lines.map lineTag) = Xml.declaration ++ (nfoContents root lines).render := by
  have hlayout : ∀ first start body finish : Path, first = Xml.declaration ++ ['\n'] →
      first ++ start ++ body ++ finish = Xml.declaration ++ ('\n' :: start ++ body ++ finish) := by
    rintro first start body finish rfl
    simp only [List.append_assoc, List.cons_append, List.nil_append]
  rw [render_nfoContents]
  exact hlayout _ _ _ _ (by decide)

theorem elements_lineContents (lines : List NfoLine) :
    (lineContents lines).elements =
      (lines.filterMap id).map fun field =>
        (field.1, Xml.Content.nil.prepend (Xml.escape field.2)) := by
  induction lines with
  | nil => rfl
  | cons line lines ih =>
      cases line with
      | none =>
          rw [lineContents, Xml.Content.elements_prepend, ih]
          rfl
      | some field =>
          rw [lineContents, Xml.Content.elements_prepend, Xml.Content.elements,
            Xml.Content.elements_prepend, ih]
          rfl

theorem isWhite_characters (lines : List NfoLine) :
    (lineContents lines).characters.all Xml.isWhite = true := by
  induction lines with
  | nil => rfl
  | cons line lines ih =>
      cases line with
      | none =>
          rw [lineContents, Xml.Content.characters_prepend, List.all_append, ih, Bool.and_true]
          decide
      | some field =>
          rw [lineContents, Xml.Content.characters_prepend, Xml.Content.characters,
            Xml.Content.characters_prepend, List.all_append, List.all_append, ih, Bool.and_true]
          decide

/-- A line whose name and whose text an element can have. -/
def LegalLine (line : NfoLine) : Prop :=
  ∀ field ∈ line, Xml.isName field.1 = true ∧ ∀ c ∈ field.2, Xml.isChar c = true

theorem isLegal_lineContents (h : ∀ line ∈ lines, LegalLine line) :
    (lineContents lines).IsLegal := by
  induction lines with
  | nil => trivial
  | cons line lines ih =>
      have hrest := ih fun line hline => h line (List.mem_cons_of_mem _ hline)
      cases line with
      | none => exact hrest.prepend (by decide)
      | some field =>
          obtain ⟨hname, hvalue⟩ := h _ List.mem_cons_self field rfl
          refine Xml.Content.IsLegal.prepend ?_ (by decide)
          exact ⟨hname, Xml.Content.isLegal_value hvalue, hrest.prepend (by decide)⟩

theorem isLegal_nfoContents (hroot : Xml.isName root = true)
    (h : ∀ line ∈ lines, LegalLine line) : (nfoContents root lines).IsLegal := by
  refine Xml.Content.IsLegal.prepend ?_ (by decide)
  refine ⟨hroot, (isLegal_lineContents h).prepend (by decide), ?_⟩
  exact Xml.Content.IsLegal.prepend trivial (by decide)

theorem ofContent_nfoContents (root : Path) (lines : List NfoLine) :
    Xml.Document.ofContent (nfoContents root lines) =
      some ⟨root, (lineContents lines).prepend ['\n']⟩ := by
  have helements : (nfoContents root lines).elements =
      [(root, (lineContents lines).prepend ['\n'])] := by
    rw [nfoContents, Xml.Content.elements_prepend]
    rfl
  have hcharacters : (nfoContents root lines).characters = ['\n', '\n'] := by
    rw [nfoContents, Xml.Content.characters_prepend]
    rfl
  rw [Xml.Document.ofContent, helements, hcharacters]
  rfl

/-- What the template is read as. -/
theorem read_nfoTemplate (hroot : Xml.isName root = true) (h : ∀ line ∈ lines, LegalLine line) :
    Xml.read (nfoTemplate root (lines.map lineTag)) =
      some ⟨root, (lineContents lines).prepend ['\n']⟩ := by
  rw [nfoTemplate_eq, Xml.Content.read_declaration_append (isLegal_nfoContents hroot h),
    ofContent_nfoContents]

theorem fields_lineContents (root : Path) (lines : List NfoLine) :
    Xml.Document.fields ⟨root, (lineContents lines).prepend ['\n']⟩ =
      some (lines.filterMap id) := by
  apply Xml.Document.fields_eq
  · rw [Xml.Content.characters_prepend, List.all_append, isWhite_characters, Bool.and_true]
    decide
  · rw [Xml.Content.elements_prepend, elements_lineContents]

end Trees

section Items
variable {item : NfoItem}

theorem isChar_of_isDigit {c : Char} (h : c.isDigit = true) : Xml.isChar c = true := by
  have hbounds := Char.isDigit_iff_toNat.mp h
  have hzero : '0'.toNat = 48 := rfl
  have hnine : '9'.toNat = 57 := rfl
  simp only [Xml.isChar, Bool.or_eq_true, Bool.and_eq_true, decide_eq_true_eq]
  omega

theorem isChar_str {value : FieldValue} (h : value.isLegal = true) :
    ∀ c ∈ value.str, Xml.isChar c = true := by
  cases value with
  | text value => exact List.all_eq_true.mp h
  | int n =>
      intro c hc
      cases n with
      | ofNat n => exact isChar_of_isDigit (isDigit_of_mem_decimal hc)
      | negSucc n =>
          rcases List.mem_cons.mp hc with rfl | hc
          · decide
          · exact isChar_of_isDigit (isDigit_of_mem_decimal hc)

/-- The column of a line. -/
theorem legalLine_value (name : Path) {value : Option FieldValue} (hname : Xml.isName name = true)
    (h : ∀ v ∈ value, v.isLegal = true) : LegalLine (value.map fun value => (name, value.str)) := by
  intro field hfield
  obtain ⟨v, hv, rfl⟩ := Option.mem_map.mp hfield
  exact ⟨hname, isChar_str (h v hv)⟩

theorem isName_root (item : NfoItem) : Xml.isName item.root = true := by
  rw [NfoItem.root]
  split_ifs
  · decide
  · decide

theorem legalLine_of_mem_lines (hfile : ∀ c ∈ item.fileName, Xml.isChar c = true)
    (hvalues : ∀ v ∈ item.values, v.isLegal = true) : ∀ line ∈ item.lines, LegalLine line := by
  have hcolumn : ∀ value ∈ [item.title, item.year, item.tmdbId, item.season, item.episode],
      ∀ v ∈ value, v.isLegal = true := by
    intro value hvalue v hv
    exact hvalues v (List.mem_filterMap.mpr ⟨value, hvalue, hv⟩)
  have htruthy : ∀ value ∈ [item.title, item.year, item.tmdbId, item.season, item.episode],
      ∀ v ∈ value.filter (·.isTruthy), v.isLegal = true :=
    fun value hvalue v hv => hcolumn value hvalue v (Option.mem_filter_iff.mp hv).1
  have htitle : LegalLine (some ("title".toList, item.shownTitle)) := by
    have hname : Xml.isName "title".toList = true := by decide
    rintro field ⟨⟩
    refine ⟨hname, ?_⟩
    rw [NfoItem.shownTitle]
    cases hshown : item.title.filter (·.isTruthy) with
    | some title => exact isChar_str (htruthy item.title (by simp) title hshown)
    | none =>
        intro c hc
        apply hfile
        rw [← splitext_join item.fileName]
        exact List.mem_append_left _ hc
  have htmdb := legalLine_value "tmdbid".toList (by decide)
    (htruthy item.tmdbId (by simp))
  have hyear := legalLine_value "year".toList (by decide) (htruthy item.year (by simp))
  have hseason := legalLine_value "season".toList (by decide)
    (hcolumn item.season (by simp))
  have hepisode := legalLine_value "episode".toList (by decide)
    (hcolumn item.episode (by simp))
  intro line hline
  rw [NfoItem.lines] at hline
  split_ifs at hline with htv
  · simp only [List.mem_cons, List.not_mem_nil, or_false] at hline
    rcases hline with rfl | rfl | rfl | rfl
    · exact htitle
    · exact hseason
    · exact hepisode
    · exact htmdb
  · simp only [List.mem_cons, List.not_mem_nil, or_false] at hline
    rcases hline with rfl | rfl | rfl
    · exact htitle
    · exact hyear
    · exact htmdb

/-- The document of an item has the elements of its media type, with its values as their texts. -/
theorem read_buildSimpleNfo (item : NfoItem) (hfile : ∀ c ∈ item.fileName, Xml.isChar c = true)
    (hvalues : ∀ v ∈ item.values, v.isLegal = true) :
    ∃ document, Xml.read (buildSimpleNfo item) = some document ∧ document.name = item.root ∧
      document.fields = some item.fields := by
  have hlines := legalLine_of_mem_lines hfile hvalues
  refine ⟨⟨item.root, (lineContents item.lines).prepend ['\n']⟩, ?_, rfl, ?_⟩
  · rw [buildSimpleNfo_eq, read_nfoTemplate (isName_root item) hlines]
  · exact fields_lineContents item.root item.lines

/-- An episode the title of which is markup. -/
def markedEpisode : NfoItem where
  fileName := "a.mkv".toList
  mediaType := some "tv".toList
  title := some (.text "</title>&lt;".toList)
  season := some (.int 0)
  tmdbId := some (.int 7)

theorem markedEpisode_read :
    ∃ document, Xml.read (buildSimpleNfo markedEpisode) = some document ∧
      document.name = "episodedetails".toList ∧
      document.fields = some [("title".toList, "</title>&lt;".toList),
        ("season".toList, ['0']), ("tmdbid".toList, ['7'])] :=
  read_buildSimpleNfo markedEpisode
    (List.all_eq_true.mp (by decide : markedEpisode.fileName.all Xml.isChar = true))
    (List.all_eq_true.mp (by decide : markedEpisode.values.all FieldValue.isLegal = true))

/-- Items with the same document have the same values in it. -/
theorem fields_eq_of_buildSimpleNfo_eq {item' : NfoItem}
    (hlines : ∀ line ∈ item.lines, LegalLine line) (hlines' : ∀ line ∈ item'.lines, LegalLine line)
    (h : buildSimpleNfo item = buildSimpleNfo item') :
    item.root = item'.root ∧ item.fields = item'.fields := by
  have hread := congrArg Xml.read h
  rw [buildSimpleNfo_eq, buildSimpleNfo_eq, read_nfoTemplate (isName_root item) hlines,
    read_nfoTemplate (isName_root item') hlines'] at hread
  have hdocument := Option.some.inj hread
  refine ⟨congrArg Xml.Document.name hdocument, ?_⟩
  have hfields := congrArg Xml.Document.fields hdocument
  rw [fields_lineContents, fields_lineContents] at hfields
  exact Option.some.inj hfields

end Items

end SmartMedia.Scrape

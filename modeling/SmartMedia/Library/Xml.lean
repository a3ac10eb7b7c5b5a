import Mathlib.Data.List.Chain
import Mathlib.Tactic.Common

/-!
# Documents of elements and characters

Texts are lists of characters. The part of XML 1.0 without attributes, comments, processing
instructions, sections and document types: an XML declaration, elements with names in ASCII, and
characters with references to the five predefined entities. What is read is well formed, and what
a legal tree is written as is read as that tree. Line ends are read as they stand.
-/
namespace Xml

abbrev Text := List Char

section Characters
variable {text s t : Text} {c : Char}

/-- The characters of XML 1.0. -/
def isChar (c : Char) : Bool :=
  let n := c.toNat
  n = 0x9 || n = 0xa || n = 0xd || (0x20 ≤ n && n ≤ 0xd7ff) || (0xe000 ≤ n && n ≤ 0xfffd) ||
    0x10000 ≤ n

def isWhite (c : Char) : Bool := c = ' ' || c = '\t' || c = '\n' || c = '\r'

def isNameStart (c : Char) : Bool := c.isAlpha || c = '_'

def isNameChar (c : Char) : Bool := c.isAlphanum || c = '_' || c = '-' || c = '.'

def isName : Text → Bool
  | [] => false
  | c :: rest => isNameStart c && rest.all isNameChar

/-- The predefined entities and what they stand for. -/
def predefined : List (Text × Char) :=
  [(['a', 'm', 'p'], '&'), (['l', 't'], '<'), (['g', 't'], '>'), (['q', 'u', 'o', 't'], '"'),
    (['a', 'p', 'o', 's'], '\'')]

def entity (name : Text) : Option Char := (predefined.find? (·.1 = name)).map (·.2)

def escapeChar (c : Char) : Text :=
  match predefined.find? (·.2 = c) with
  | some (name, _) => '&' :: name ++ [';']
  | none => [c]

/-- Each character that an entity stands for is replaced by a reference to it. -/
def escape (text : Text) : Text := text.flatMap escapeChar

/-- The references are replaced, behind the beginning of one or of none. -/
def expandFrom : Option Text → Text → Option Text
  | none, [] => some []
  | some _, [] => none
  | none, c :: rest =>
      if c = '&' then expandFrom (some []) rest else (expandFrom none rest).map (c :: ·)
  | some name, c :: rest =>
      if c = ';' then (entity name).bind fun d => (expandFrom none rest).map (d :: ·)
      else expandFrom (some (name ++ [c])) rest

/-- The references are replaced; none where an ampersand begins no reference. -/
def expand (text : Text) : Option Text := expandFrom none text

/-- What may stand between two tags: no markup, and no `>` either, so that it has no `]]>`. -/
def isCharData (text : Text) : Bool :=
  (text.all fun c => isChar c && c != '<' && c != '>') && (expand text).isSome

theorem expandFrom_name {name rest : Text} (acc : Text) (h : ';' ∉ name) :
    expandFrom (some acc) (name ++ ';' :: rest) =
      (entity (acc ++ name)).bind fun d => (expandFrom none rest).map (d :: ·) := by
  induction name generalizing acc with
  | nil => rw [List.nil_append, expandFrom, if_pos rfl, List.append_nil]
  | cons c name ih =>
      rw [List.mem_cons, not_or] at h
      rw [List.cons_append, expandFrom, if_neg (Ne.symm h.1), ih _ h.2, List.append_assoc,
        List.singleton_append]

theorem expandFrom_cons {rest : Text} (h : c ≠ '&') :
    expandFrom none (c :: rest) = (expandFrom none rest).map (c :: ·) := by
  rw [expandFrom, if_neg h]

/-- Each name is the name of its character, and ends where it ends. -/
theorem entity_of_mem_predefined :
    ∀ e ∈ predefined, entity e.1 = some e.2 ∧ ';' ∉ e.1 := by
  decide

theorem expandFrom_escapeChar (c : Char) (rest : Text) :
    expandFrom none (escapeChar c ++ rest) = (expandFrom none rest).map (c :: ·) := by
  rw [escapeChar]
  cases hfind : predefined.find? (·.2 = c) with
  | none =>
      have hamp : c ≠ '&' := by
        rintro rfl
        exact absurd hfind (by decide)
      exact expandFrom_cons hamp
  | some e =>
      obtain ⟨hentity, hname⟩ := entity_of_mem_predefined e (List.mem_of_find?_eq_some hfind)
      have hc : e.2 = c := of_decide_eq_true (List.find?_some (p := fun e : Text × Char => decide (e.2 = c)) hfind)
      have hrefer : '&' :: e.1 ++ [';'] ++ rest = '&' :: (e.1 ++ ';' :: rest) := by
        rw [List.cons_append, List.cons_append, List.append_assoc, List.singleton_append]
      show expandFrom none ('&' :: e.1 ++ [';'] ++ rest) = _
      rw [hrefer, expandFrom, if_pos rfl, expandFrom_name [] hname, List.nil_append, hentity, hc,
        Option.bind_some]

/-- What is escaped is read as what it was. -/
theorem expand_escape (text : Text) : expand (escape text) = some text := by
  induction text with
  | nil => rfl
  | cons c text ih =>
      rw [expand] at ih
      rw [escape, List.flatMap_cons, ← escape, expand, expandFrom_escapeChar, ih, Option.map_some]

/-- An entity's reference is character data itself. -/
theorem reference_of_mem_predefined : ∀ e ∈ predefined, ∀ d ∈ '&' :: e.1 ++ [';'],
    (isChar d && d != '<' && d != '>') = true := by
  have hall : (predefined.all fun e => ('&' :: e.1 ++ [';']).all fun d =>
      isChar d && d != '<' && d != '>') = true := by
    decide
  intro e he
  exact List.all_eq_true.mp (List.all_eq_true.mp hall e he)

theorem isChar_escapeChar (h : isChar c = true) :
    ∀ d ∈ escapeChar c, (isChar d && d != '<' && d != '>') = true := by
  intro d hd
  rw [escapeChar] at hd
  cases hfind : predefined.find? (·.2 = c) with
  | none =>
      rw [hfind, List.mem_singleton] at hd
      have hmarkup : c ≠ '<' ∧ c ≠ '>' := by
        constructor
        · rintro rfl
          exact absurd hfind (by decide)
        · rintro rfl
          exact absurd hfind (by decide)
      rw [hd, h, Bool.true_and, Bool.and_eq_true, bne_iff_ne, bne_iff_ne]
      exact hmarkup
  | some e =>
      rw [hfind] at hd
      exact reference_of_mem_predefined e (List.mem_of_find?_eq_some hfind) d hd

theorem isCharData_escape (h : ∀ c ∈ text, isChar c = true) : isCharData (escape text) = true := by
  rw [isCharData, expand_escape, Option.isSome_some, Bool.and_true, List.all_eq_true]
  intro d hd
  obtain ⟨c, hc, hd⟩ := List.mem_flatMap.mp hd
  exact isChar_escapeChar (h c hc) d hd

theorem isWhite_cases (h : isWhite c = true) :
    (isChar c && c != '<' && c != '>') = true ∧ c ≠ '&' := by
  simp only [isWhite, Bool.or_eq_true, decide_eq_true_eq] at h
  rcases h with ((rfl | rfl) | rfl) | rfl
  all_goals decide

/-- White characters in front change nothing about character data. -/
theorem isCharData_append (h : s.all isWhite = true) : isCharData (s ++ t) = isCharData t := by
  induction s with
  | nil => rfl
  | cons c s ih =>
      rw [List.all_cons, Bool.and_eq_true] at h
      obtain ⟨hchar, hamp⟩ := isWhite_cases h.1
      have htail := ih h.2
      rw [isCharData, expand] at htail
      rw [List.cons_append, isCharData, List.all_cons, hchar, Bool.true_and, expand,
        expandFrom_cons hamp, Option.isSome_map, htail]

end Characters

section Tokens

inductive Token
  | startTag (name : Text)
  | endTag (name : Text)
  | chars (text : Text)
  deriving DecidableEq, Repr

namespace Token

def render : Token → Text
  | startTag name => '<' :: name ++ ['>']
  | endTag name => '<' :: '/' :: name ++ ['>']
  | chars text => text

def isLegal : Token → Bool
  | startTag name => isName name
  | endTag name => isName name
  | chars text => isCharData text

def isChars : Token → Bool
  | chars _ => true
  | _ => false

/-- What stands between `<` and `>`. -/
def ofTag : Text → Token
  | '/' :: name => endTag name
  | name => startTag name

end Token

/-- The characters read so far, if there are any, before the tokens behind them. -/
def flush (acc : Text) (tokens : List Token) : List Token :=
  if acc = [] then tokens else .chars acc :: tokens

inductive Mode
  | chars (acc : Text)
  | tag (acc : Text)

/-- The tokens of a text of which the beginning of one has been read. -/
def lexFrom : Mode → Text → Option (List Token)
  | .chars acc, [] => some (flush acc [])
  | .tag _, [] => none
  | .chars acc, c :: rest =>
      if c = '<' then (lexFrom (.tag []) rest).map (flush acc)
      else lexFrom (.chars (acc ++ [c])) rest
  | .tag acc, c :: rest =>
      if c = '>' then (lexFrom (.chars []) rest).map (.ofTag acc :: ·)
      else lexFrom (.tag (acc ++ [c])) rest

def lex (text : Text) : Option (List Token) := lexFrom (.chars []) text

variable {text name rest : Text} {tokens : List Token} {token : Token}

theorem lexFrom_chars (acc : Text) (h : '<' ∉ text) :
    lexFrom (.chars acc) (text ++ rest) = lexFrom (.chars (acc ++ text)) rest := by
  induction text generalizing acc with
  | nil => rw [List.nil_append, List.append_nil]
  | cons c text ih =>
      rw [List.mem_cons, not_or] at h
      rw [List.cons_append, lexFrom, if_neg (Ne.symm h.1), ih _ h.2, List.append_assoc,
        List.singleton_append]

theorem lexFrom_tag (acc : Text) (h : '>' ∉ name) :
    lexFrom (.tag acc) (name ++ '>' :: rest) =
      (lexFrom (.chars []) rest).map (.ofTag (acc ++ name) :: ·) := by
  induction name generalizing acc with
  | nil => rw [List.nil_append, lexFrom, if_pos rfl, List.append_nil]
  | cons c name ih =>
      rw [List.mem_cons, not_or] at h
      rw [List.cons_append, lexFrom, if_neg (Ne.symm h.1), ih _ h.2, List.append_assoc,
        List.singleton_append]

theorem isNameChar_of_mem {c : Char} (h : isName name = true) (hc : c ∈ name) :
    isNameChar c = true := by
  cases name with
  | nil => cases hc
  | cons d name =>
      rw [isName, Bool.and_eq_true] at h
      rcases List.mem_cons.mp hc with rfl | hc
      · have hstart := h.1
        rw [isNameStart, Bool.or_eq_true] at hstart
        have halphanum : c.isAlphanum = (c.isAlpha || c.isDigit) := rfl
        rw [isNameChar, halphanum, Bool.or_eq_true, Bool.or_eq_true, Bool.or_eq_true,
          Bool.or_eq_true]
        exact .inl (.inl (hstart.imp .inl id))
      · exact List.all_eq_true.mp h.2 c hc

theorem ofTag_name (h : isName name = true) : Token.ofTag name = .startTag name := by
  cases name with
  | nil => cases h
  | cons c name =>
      rw [Token.ofTag]
      rintro rest ⟨⟩
      exact absurd (isNameChar_of_mem h List.mem_cons_self) (by decide)

theorem not_mem_name {c : Char} (hc : isNameChar c = false) (h : isName name = true) :
    c ∉ name := by
  intro hmem
  rw [isNameChar_of_mem h hmem] at hc
  cases hc

/-- A tag is read as it was written, behind characters. -/
theorem lexFrom_render (acc : Text) (hlegal : token.isLegal = true) (htag : token.isChars = false) :
    lexFrom (.chars acc) (token.render ++ rest) =
      (lexFrom (.chars []) rest).map fun tokens => flush acc (token :: tokens) := by
  cases token with
  | chars text => cases htag
  | startTag name =>
      have hshape : Token.render (.startTag name) ++ rest = '<' :: (name ++ '>' :: rest) := by
        rw [Token.render, List.cons_append, List.cons_append, List.append_assoc,
          List.singleton_append]
      rw [hshape, lexFrom, if_pos rfl, lexFrom_tag [] (not_mem_name (by decide) hlegal),
        Option.map_map, List.nil_append, ofTag_name hlegal]
      rfl
  | endTag name =>
      have hshape : Token.render (.endTag name) ++ rest = '<' :: ('/' :: name ++ '>' :: rest) := by
        rw [Token.render, List.cons_append, List.cons_append, List.cons_append, List.cons_append,
          List.append_assoc, List.singleton_append, List.cons_append]
      have hend : '>' ∉ '/' :: name := by
        rw [List.mem_cons, not_or]
        exact ⟨by decide, not_mem_name (by decide) hlegal⟩
      rw [hshape, lexFrom, if_pos rfl, lexFrom_tag [] hend, Option.map_map]
      rfl

/-- No characters stand behind characters, and none of them are none. -/
def Separated (tokens : List Token) : Prop :=
  tokens.IsChain (fun t u => t.isChars = true → u.isChars = false) ∧ Token.chars [] ∉ tokens

theorem not_mem_charData {c : Char} (hc : c = '<' ∨ c = '>') (h : isCharData text = true) :
    c ∉ text := by
  intro hmem
  rw [isCharData, Bool.and_eq_true, List.all_eq_true] at h
  have hchar := h.1 c hmem
  simp only [Bool.and_eq_true, bne_iff_ne] at hchar
  exact hc.elim hchar.1.2 hchar.2

theorem flush_of_ne_nil (h : text ≠ []) : flush text tokens = .chars text :: tokens := if_neg h

/-- The characters in front of the tokens do not run into theirs. -/
theorem lexFrom_flatMap_render (acc : Text) (hlegal : ∀ t ∈ tokens, t.isLegal = true)
    (h : Separated tokens) (hacc : acc = [] ∨ ∀ t ∈ tokens.head?, t.isChars = false) :
    lexFrom (.chars acc) (tokens.flatMap Token.render) = some (flush acc tokens) := by
  induction tokens generalizing acc with
  | nil => rw [List.flatMap_nil, lexFrom]
  | cons token tokens ih =>
      obtain ⟨hchain, hnil⟩ := h
      rw [List.isChain_cons] at hchain
      rw [List.mem_cons, not_or] at hnil
      have hrest := fun t ht => hlegal t (List.mem_cons_of_mem token ht)
      rw [List.flatMap_cons]
      cases htoken : token.isChars with
      | true =>
          obtain ⟨text, rfl⟩ : ∃ text, token = .chars text := by
            cases token with
            | chars text => exact ⟨text, rfl⟩
            | startTag name => cases htoken
            | endTag name => cases htoken
          have hempty : acc = [] := hacc.resolve_right fun hhead => by
            rw [hhead _ rfl] at htoken
            cases htoken
          have hne : text ≠ [] := by
            rintro rfl
            exact hnil.1 rfl
          have htext := not_mem_charData (.inl rfl) (hlegal _ List.mem_cons_self)
          rw [Token.render, hempty, lexFrom_chars [] htext, List.nil_append,
            ih text hrest ⟨hchain.2, hnil.2⟩ (.inr fun t ht => hchain.1 t ht htoken),
            flush_of_ne_nil hne]
          rfl
      | false =>
          rw [lexFrom_render acc (hlegal token List.mem_cons_self) htoken,
            ih [] hrest ⟨hchain.2, hnil.2⟩ (.inl rfl)]
          rfl

theorem lex_flatMap_render (hlegal : ∀ t ∈ tokens, t.isLegal = true) (h : Separated tokens) :
    lex (tokens.flatMap Token.render) = some tokens :=
  lexFrom_flatMap_render [] hlegal h (.inl rfl)

end Tokens

section Trees

/-- Elements and the characters between them, from left to right. -/
inductive Content
  | nil
  | chars (text : Text) (rest : Content)
  | element (name : Text) (children rest : Content)
  deriving DecidableEq, Repr

namespace Content

def tokens : Content → List Token
  | nil => []
  | chars text rest => .chars text :: rest.tokens
  | element name children rest =>
      .startTag name :: (children.tokens ++ .endTag name :: rest.tokens)

def render (content : Content) : Text := content.tokens.flatMap Token.render

def beginsWithChars : Content → Bool
  | chars _ _ => true
  | _ => false

def IsLegal : Content → Prop
  | nil => True
  | chars text rest =>
      text ≠ [] ∧ isCharData text = true ∧ rest.beginsWithChars = false ∧ rest.IsLegal
  | element name children rest => isName name = true ∧ children.IsLegal ∧ rest.IsLegal

def append : Content → Content → Content
  | nil, later => later
  | chars text rest, later => chars text (rest.append later)
  | element name children rest, later => element name children (rest.append later)

/-- The elements that are not inside others. -/
def elements : Content → List (Text × Content)
  | nil => []
  | chars _ rest => rest.elements
  | element name children rest => (name, children) :: rest.elements

/-- The characters that are not inside elements. -/
def characters : Content → Text
  | nil => []
  | chars text rest => text ++ rest.characters
  | element _ _ rest => rest.characters

/-- The text of an element without elements. -/
def leaf : Content → Option Text
  | nil => some []
  | chars text nil => some text
  | _ => none

/-- Behind characters, which those at the beginning join. -/
def prepend (text : Text) : Content → Content
  | chars later rest => chars (text ++ later) rest
  | content => if text = [] then content else chars text content

end Content

/-- What is behind a token: the rest of its element, and what is behind the elements around. -/
abbrev Behind := Content × List (Text × Content)

/-- A token is read in front of what is behind it. -/
def Token.read : Token → Behind → Option Behind
  | .chars text, (content, outer) => some (.chars text content, outer)
  | .endTag name, (content, outer) => some (.nil, (name, content) :: outer)
  | .startTag _, (_, []) => none
  | .startTag name, (content, (ended, rest) :: outer) =>
      if name = ended then some (.element name content rest, outer) else none

/-- Each start tag has its end tag and each end tag its start tag. -/
def ofTokens (tokens : List Token) : Option Content :=
  (tokens.foldr (fun token behind => behind.bind token.read) (some (.nil, []))).bind
    fun behind => if behind.2 = [] then some behind.1 else none

/-- The name and the content of the element that a document is. -/
structure Document where
  name : Text
  content : Content
  deriving DecidableEq, Repr

def declaration : Text := "<?xml version=\"1.0\" encoding=\"UTF-8\"?>".toList

def readContent (text : Text) : Option Content :=
  (lex text).bind fun tokens => if tokens.all Token.isLegal then ofTokens tokens else none

/-- One element, and besides it nothing but white characters. -/
def Document.ofContent (content : Content) : Option Document :=
  match content.elements with
  | [(name, children)] => if content.characters.all isWhite then some ⟨name, children⟩ else none
  | _ => none

/-- A well-formed document is read; a text that is none is not. -/
def read (text : Text) : Option Document :=
  if declaration <+: text then
    (readContent (text.drop declaration.length)).bind Document.ofContent
  else none

/-- The names and the texts of the elements, when all of them are leaves and only white characters
stand between them. -/
def Document.fields (document : Document) : Option (List (Text × Text)) :=
  if document.content.characters.all isWhite then
    document.content.elements.mapM fun e => (e.2.leaf.bind expand).map (e.1, ·)
  else none

variable {text name value : Text} {content rest children : Content}

namespace Content

theorem append_nil (content : Content) : content.append nil = content := by
  induction content with
  | nil => rfl
  | chars text rest ih => rw [append, ih]
  | element name children rest _ ih => rw [append, ih]

/-- The tokens of a tree are read as the tree, in front of whatever is behind them. -/
theorem foldr_tokens (content later : Content) (outer : List (Text × Content)) :
    content.tokens.foldr (fun token behind => behind.bind token.read) (some (later, outer)) =
      some (content.append later, outer) := by
  induction content generalizing later outer with
  | nil => rfl
  | chars text rest ih => rw [tokens, List.foldr_cons, ih, Option.bind_some, Token.read, append]
  | element name children rest ihc ih =>
      rw [tokens, List.foldr_cons, List.foldr_append, List.foldr_cons, ih, Option.bind_some,
        Token.read, ihc, Option.bind_some, Token.read, if_pos rfl, append_nil, append]

theorem ofTokens_tokens (content : Content) : ofTokens content.tokens = some content := by
  rw [ofTokens, foldr_tokens, append_nil, Option.bind_some, if_pos rfl]

theorem isLegal_of_mem_tokens (h : content.IsLegal) : ∀ t ∈ content.tokens, t.isLegal = true := by
  induction content with
  | nil => exact fun t ht => absurd ht List.not_mem_nil
  | chars text rest ih =>
      intro t ht
      rcases List.mem_cons.mp ht with rfl | ht
      · exact h.2.1
      · exact ih h.2.2.2 t ht
  | element name children rest ihc ih =>
      intro t ht
      rcases List.mem_cons.mp ht with rfl | ht
      · exact h.1
      rcases List.mem_append.mp ht with ht | ht
      · exact ihc h.2.1 t ht
      rcases List.mem_cons.mp ht with rfl | ht
      · exact h.1
      · exact ih h.2.2 t ht

theorem head?_tokens (h : content.beginsWithChars = false) :
    ∀ t ∈ content.tokens.head?, t.isChars = false := by
  cases content with
  | nil => exact fun t ht => absurd ht (Option.not_mem_none t)
  | chars text rest => cases h
  | element name children rest =>
      rintro t ⟨⟩
      rfl

theorem separated_tokens (h : content.IsLegal) : Separated content.tokens := by
  induction content with
  | nil => exact ⟨List.isChain_nil, List.not_mem_nil⟩
  | chars text rest ih =>
      obtain ⟨hchain, hnil⟩ := ih h.2.2.2
      rw [tokens, Separated, List.isChain_cons, List.mem_cons, not_or]
      refine ⟨⟨fun t ht _ => head?_tokens h.2.2.1 t ht, hchain⟩, fun heq => ?_, hnil⟩
      exact h.1 (Token.chars.inj heq).symm
  | element name children rest ihc ih =>
      obtain ⟨hchildren, hcnil⟩ := ihc h.2.1
      obtain ⟨hchain, hnil⟩ := ih h.2.2
      have hend : (Token.endTag name :: rest.tokens).IsChain
          (fun t u => t.isChars = true → u.isChars = false) := by
        rw [List.isChain_cons]
        exact ⟨fun t _ htag => absurd htag Bool.false_ne_true, hchain⟩
      rw [tokens, Separated, List.isChain_cons, List.isChain_append]
      refine ⟨⟨fun t _ htag => absurd htag Bool.false_ne_true, hchildren, hend, fun t _ u hu _ => ?_⟩, ?_⟩
      · rw [← Option.some.inj hu]
        rfl
      · simp only [List.mem_cons, List.mem_append, hcnil, hnil, reduceCtorEq, or_self,
          not_false_eq_true]

/-- What a legal tree is written as is read as the tree. -/
theorem readContent_render (h : content.IsLegal) : readContent content.render = some content := by
  have hlegal := isLegal_of_mem_tokens h
  rw [readContent, render, lex_flatMap_render hlegal (separated_tokens h), Option.bind_some,
    if_pos (List.all_eq_true.mpr hlegal), ofTokens_tokens]

theorem read_declaration_append (h : content.IsLegal) :
    read (declaration ++ content.render) = Document.ofContent content := by
  rw [read, if_pos (List.prefix_append _ _), List.drop_left, readContent_render h, Option.bind_some]

section Shape

theorem render_nil : nil.render = [] := rfl

theorem render_element (name : Text) (children rest : Content) :
    (element name children rest).render =
      '<' :: name ++ ['>'] ++ (children.render ++ ('<' :: '/' :: name ++ ['>'] ++ rest.render)) := by
  simp only [render, tokens, List.flatMap_cons, List.flatMap_append, Token.render]

theorem prepend_cases (text : Text) (content : Content) :
    (∃ later rest, content = chars later rest ∧
      content.prepend text = chars (text ++ later) rest) ∨
    (text = [] ∧ content.prepend text = content) ∨
    (text ≠ [] ∧ content.beginsWithChars = false ∧ content.prepend text = chars text content) := by
  by_cases htext : text = []
  · cases content with
    | nil => exact .inr (.inl ⟨htext, if_pos htext⟩)
    | chars later rest => exact .inl ⟨later, rest, rfl, rfl⟩
    | element name children rest => exact .inr (.inl ⟨htext, if_pos htext⟩)
  · cases content with
    | nil => exact .inr (.inr ⟨htext, rfl, if_neg htext⟩)
    | chars later rest => exact .inl ⟨later, rest, rfl, rfl⟩
    | element name children rest => exact .inr (.inr ⟨htext, rfl, if_neg htext⟩)

theorem render_prepend (text : Text) (content : Content) :
    (content.prepend text).render = text ++ content.render := by
  rcases prepend_cases text content with ⟨later, rest, hchars, h⟩ | ⟨hnil, h⟩ | ⟨-, -, h⟩
  · rw [h, hchars]
    simp only [render, tokens, List.flatMap_cons, Token.render, List.append_assoc]
  · rw [h, hnil, List.nil_append]
  · simp only [h, render, tokens, List.flatMap_cons, Token.render]

theorem elements_prepend (text : Text) (content : Content) :
    (content.prepend text).elements = content.elements := by
  rcases prepend_cases text content with ⟨later, rest, hchars, h⟩ | ⟨-, h⟩ | ⟨-, -, h⟩
  · rw [h, hchars, elements, elements]
  · rw [h]
  · rw [h, elements]

theorem characters_prepend (text : Text) (content : Content) :
    (content.prepend text).characters = text ++ content.characters := by
  rcases prepend_cases text content with ⟨later, rest, hchars, h⟩ | ⟨hnil, h⟩ | ⟨-, -, h⟩
  · rw [h, hchars, characters, characters, List.append_assoc]
  · rw [h, hnil, List.nil_append]
  · rw [h, characters]

theorem IsLegal.prepend (h : content.IsLegal) (hwhite : text.all isWhite = true) :
    (content.prepend text).IsLegal := by
  have htext : isCharData text = true := by
    rw [← List.append_nil text, isCharData_append hwhite]
    rfl
  rcases prepend_cases text content with
    ⟨later, rest, hchars, heq⟩ | ⟨-, heq⟩ | ⟨hne, hbegin, heq⟩
  · rw [hchars] at h
    rw [heq]
    exact ⟨List.append_ne_nil_of_right_ne_nil _ h.1, (isCharData_append hwhite).trans h.2.1, h.2.2⟩
  · rw [heq]
    exact h
  · rw [heq]
    exact ⟨hne, htext, hbegin, h⟩

/-- An element with a value. -/
theorem isLegal_value (h : ∀ c ∈ value, isChar c = true) :
    (nil.prepend (escape value)).IsLegal := by
  rcases prepend_cases (escape value) nil with ⟨later, rest, hchars, -⟩ | ⟨-, heq⟩ | ⟨hne, -, heq⟩
  · cases hchars
  · rw [heq]
    trivial
  · rw [heq]
    exact ⟨hne, isCharData_escape h, rfl, trivial⟩

theorem leaf_prepend (text : Text) : (nil.prepend text).leaf = some text := by
  rcases prepend_cases text nil with ⟨later, rest, hchars, -⟩ | ⟨hnil, heq⟩ | ⟨-, -, heq⟩
  · cases hchars
  · rw [heq, hnil, leaf]
  · rw [heq, leaf]

end Shape

end Content

section Fields
variable {fields : List (Text × Text)}

theorem mapM_leaf (fields : List (Text × Text)) :
    (fields.map fun field => (field.1, Content.nil.prepend (escape field.2))).mapM
      (fun e => (e.2.leaf.bind expand).map (e.1, ·)) = some fields := by
  induction fields with
  | nil => rfl
  | cons field fields ih =>
      rw [List.map_cons, List.mapM_cons, ih, Content.leaf_prepend, Option.bind_some, expand_escape]
      rfl

/-- The values are read that were written. -/
theorem Document.fields_eq (hwhite : content.characters.all isWhite = true)
    (helements : content.elements =
      fields.map fun field => (field.1, Content.nil.prepend (escape field.2))) :
    Document.fields ⟨name, content⟩ = some fields := by
  rw [Document.fields, if_pos hwhite, helements, mapM_leaf]

end Fields

end Trees

end Xml

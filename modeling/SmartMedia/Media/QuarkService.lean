import SmartMedia.Media.Validators

/-!
# Listing a remote directory

`get_files` of `app/services/integrations/quark.py`, and `html.unescape`, through which
it passes every name. The table of named character references is a parameter, the
numeric ones are resolved as the library does. The remote side is the tree of its
answers in one traversal: it may answer the same request differently each time, and it
may send any names.
-/
namespace SmartMedia.Media

namespace Html

/-- `_invalid_charrefs`. -/
def invalidCharrefs : List (ℕ × ℕ) :=
  [(0x00, 0xfffd), (0x0d, 0x0d), (0x80, 0x20ac), (0x81, 0x81), (0x82, 0x201a), (0x83, 0x192),
    (0x84, 0x201e), (0x85, 0x2026), (0x86, 0x2020), (0x87, 0x2021), (0x88, 0x2c6),
    (0x89, 0x2030), (0x8a, 0x160), (0x8b, 0x2039), (0x8c, 0x152), (0x8d, 0x8d), (0x8e, 0x17d),
    (0x8f, 0x8f), (0x90, 0x90), (0x91, 0x2018), (0x92, 0x2019), (0x93, 0x201c), (0x94, 0x201d),
    (0x95, 0x2022), (0x96, 0x2013), (0x97, 0x2014), (0x98, 0x2dc), (0x99, 0x2122),
    (0x9a, 0x161), (0x9b, 0x203a), (0x9c, 0x153), (0x9d, 0x9d), (0x9e, 0x17e), (0x9f, 0x178)]

/-- `_invalid_codepoints`. -/
def invalidCodepoint (n : ℕ) : Bool :=
  (1 ≤ n && n ≤ 8) || n = 0xb || (0xe ≤ n && n ≤ 0x1f) || (0x7f ≤ n && n ≤ 0x9f) ||
    (0xfdd0 ≤ n && n ≤ 0xfdef) || (n % 0x10000 = 0xfffe) || (n % 0x10000 = 0xffff)

def digitValue (c : Char) : ℕ :=
  if c.isDigit then c.toNat - '0'.toNat
  else if 'a' ≤ c ∧ c ≤ 'f' then c.toNat - 'a'.toNat + 10
  else c.toNat - 'A'.toNat + 10

def isHexDigit (c : Char) : Bool :=
  c.isDigit || ('a' ≤ c && c ≤ 'f') || ('A' ≤ c && c ≤ 'F')

def number (base : ℕ) (digits : Path) : ℕ :=
  digits.foldl (fun n c => base * n + digitValue c) 0

/-- A numeric reference. -/
def numeric (n : ℕ) : Path :=
  match invalidCharrefs.lookup n with
  | some code => [Char.ofNat code]
  | none =>
      if (0xd800 ≤ n ∧ n ≤ 0xdfff) ∨ 0x10ffff < n then [Char.ofNat 0xfffd]
      else if invalidCodepoint n then []
      else [Char.ofNat n]

/-- A named reference: the longest known beginning counts. -/
def named (html5 : Path → Option Path) (name : Path) : Path :=
  match html5 name with
  | some text => text
  | none =>
      match ((List.range name.length).reverse.filter (2 ≤ ·)).findSome? fun x =>
          (html5 (name.take x)).map (· ++ name.drop x) with
      | some text => text
      | none => '&' :: name

/-- `;?` -/
def semicolon : Path → Path
  | ';' :: _ => [';']
  | _ => []

/-- What the pattern `_charref` matches after an ampersand, and its replacement. -/
def charref (html5 : Path → Option Path) (s : Path) : Option (ℕ × Path) :=
  match s with
  | '#' :: rest =>
      let digits := rest.takeWhile Char.isDigit
      if digits ≠ [] then
        some (1 + digits.length + (semicolon (rest.drop digits.length)).length,
          numeric (number 10 digits))
      else match rest with
        | x :: rest =>
            let digits := rest.takeWhile isHexDigit
            if (x = 'x' ∨ x = 'X') ∧ digits ≠ [] then
              some (2 + digits.length + (semicolon (rest.drop digits.length)).length,
                numeric (number 16 digits))
            else none
        | [] => none
  | _ =>
      let name := (s.takeWhile fun c => c ∉ "\t\n\x0c <&#;".toList).take 32
      if name = [] then none
      else
        let whole := name ++ semicolon (s.drop name.length)
        some (whole.length, named html5 whole)

/-- The substitution from left to right, with at most `fuel` characters to go. -/
def substitute (html5 : Path → Option Path) : ℕ → Path → Path
  | 0, s => s
  | _, [] => []
  | fuel + 1, c :: s =>
      match if c = '&' then charref html5 s else none with
      | some (length, text) => text ++ substitute html5 fuel (s.drop length)
      | none => c :: substitute html5 fuel s

/-- `html.unescape`. -/
def unescape (html5 : Path → Option Path) (s : Path) : Path := substitute html5 s.length s

end Html

/-- An entry of the list in an answer. -/
structure FileData where
  fid : String
  fileName : Path
  fileType : ℤ := 1
  category : ℤ := 0
  size : ℕ := 0
  deriving DecidableEq, Repr

structure FileModel where
  fid : String
  fileName : Path
  isDir : Bool
  category : ℤ
  size : ℕ
  deriving DecidableEq, Repr

/-- `_file_model_from_info` on the entry with its name unescaped. -/
def fileModelFromInfo (html5 : Path → Option Path) (info : FileData) : FileModel where
  fid := info.fid
  fileName := Html.unescape html5 info.fileName
  isDir := info.fileType = 0
  category := info.category
  size := info.size

structure PageAnswer where
  list : List FileData
  total : ℕ
  deriving DecidableEq, Repr

/-- `get_files` from page `page` on; `none` is a request that raises, and so is one that
is not answered. -/
def getFiles (html5 : Path → Option Path) (onlyVideo : Bool) (pageSize : ℕ) :
    ℕ → List (Option PageAnswer) → List FileModel
  | page, some answer :: rest =>
      ((answer.list.map (fileModelFromInfo html5)).filter fun file =>
        !(onlyVideo && (file.isDir || file.category ≠ 1))) ++
        if answer.total ≤ page * pageSize then [] else getFiles html5 onlyVideo pageSize (page + 1) rest
  | _, none :: _ => []
  | _, [] => []

/-- The answers of one traversal: the pages of a directory, and what follows for the
entry at each position of the resulting list. -/
inductive Remote where
  | silent
  | answers (pages : List (Option PageAnswer)) (below : ℕ → Remote)

example : Html.unescape (fun _ => none) "..&#47;a&#x2f;b&amp".toList = "../a/b&amp".toList := by
  decide +kernel

end SmartMedia.Media

import GhaConsumer.Data

/-!
# GC — guest images

Which image a VM booted, and which the template boots: the first entry of
the `images:` block of a Lima YAML, read line by line as `gc.rs` reads
it. Strings are lists of characters here; the bytes the source looks at
are ASCII and never part of another character.
-/

namespace GhaConsumer

/-- `ImageIdentity`. -/
structure ImageIdentity where
  location : String
  digest : Option String
  deriving DecidableEq, Repr

/-! ## Text -/

/-- `char::is_whitespace`. -/
def isWhitespace (c : Char) : Bool :=
  let n := c.toNat
  (0x09 ≤ n && n ≤ 0x0d) || n == 0x20 || n == 0x85 || n == 0xa0 || n == 0x1680 ||
    (0x2000 ≤ n && n ≤ 0x200a) || n == 0x2028 || n == 0x2029 || n == 0x202f || n == 0x205f ||
    n == 0x3000

/-- `str::trim_start`. -/
def trimStart (cs : List Char) : List Char := cs.dropWhile isWhitespace

/-- `str::trim_end`. -/
def trimEnd (cs : List Char) : List Char := (trimStart cs.reverse).reverse

/-- `str::trim`. -/
def trim (cs : List Char) : List Char := trimEnd (trimStart cs)

def stripPrefix (pre : String) (cs : List Char) : Option (List Char) :=
  List.isPrefixOf? pre.toList cs

def stripSuffix (suf : String) (cs : List Char) : Option (List Char) :=
  List.isSuffixOf? suf.toList cs

/-- A line that a line feed ended, without the carriage return before it. -/
def chompReturn (line : List Char) : List Char := (stripSuffix "\r" line).getD line

/-- `str::lines`, of a text whose current line so far is `acc`, reversed. -/
def linesFrom (acc : List Char) : List Char → List (List Char)
  | [] => if acc = [] then [] else [acc.reverse]
  | '\n' :: cs => chompReturn acc.reverse :: linesFrom [] cs
  | c :: cs => linesFrom (c :: acc) cs

/-- `str::lines`. -/
def lines (cs : List Char) : List (List Char) := linesFrom [] cs

/-! ## Scalars -/

/-- The character `'`. -/
def apostrophe : Char := Char.ofNat 39

/-- Whether a `#` after these characters, the last first, begins a
comment. -/
def beginsComment : List Char → Bool
  | [] => true
  | c :: _ => c == ' ' || c == '\t' || c == '"' || c == apostrophe

/-- `strip_inline_comment` from inside a value: the open quote, and the
characters passed, reversed. -/
def stripCommentFrom (quote : Option Char) (seen : List Char) : List Char → List Char
  | [] => seen.reverse
  | c :: cs =>
    match quote with
    | some q => stripCommentFrom (if c = q then none else some q) (c :: seen) cs
    | none =>
      if c = '"' ∨ c = apostrophe then stripCommentFrom (some c) (c :: seen) cs
      else if c = '#' ∧ beginsComment seen = true then trimEnd seen.reverse
      else stripCommentFrom none (c :: seen) cs

/-- `strip_inline_comment`. -/
def stripInlineComment (value : List Char) : List Char := stripCommentFrom none [] value

/-- `value.split("://").last()`, where `best` is what follows the last
separator so far. -/
def afterSchemeFrom (best : List Char) : List Char → List Char
  | [] => best
  | c :: cs =>
    match stripPrefix "://" (c :: cs) with
    | some rest => afterSchemeFrom rest cs
    | none => afterSchemeFrom best cs

/-- The value between quotes of one kind, if it is. -/
def unquote (quote : String) (value : List Char) : Option (List Char) :=
  (stripPrefix quote value).bind (stripSuffix quote)

/-- `normalize_yaml_value`. -/
def normalizeYamlValue (value : List Char) : Option String :=
  let value := trim (stripInlineComment value)
  let value := trim
    (((unquote "\"" value).orElse fun _ => unquote (String.singleton apostrophe) value).getD value)
  if value = [] then none
  else
    let afterScheme := afterSchemeFrom value value
    if afterScheme = [] then none else some (String.ofList afterScheme)

/-! ## The `images:` block -/

/-- `is_top_level_key_line`. -/
def isTopLevelKeyLine : List Char → Bool
  | [] => false
  | c :: _ => !(c == ' ' || c == '\t' || c == '-' || c == '#')

/-- `is_top_level_key`. -/
def isTopLevelKey (line : List Char) (key : String) : Bool :=
  isTopLevelKeyLine line &&
    match stripPrefix key line with
    | some (':' :: _) => true
    | _ => false

/-- The lines after the top-level `images:` key. -/
def afterImages : List (List Char) → Option (List (List Char))
  | [] => none
  | line :: ls => if isTopLevelKey line "images" then some ls else afterImages ls

/-- The first usable `location:` of the block, and the lines after it. -/
def findLocation : List (List Char) → Option (String × List (List Char))
  | [] => none
  | line :: ls =>
    if isTopLevelKeyLine line then none
    else
      let t := trim line
      let t := ((stripPrefix "- " t).map trimStart).getD t
      match (stripPrefix "location:" t).bind normalizeYamlValue with
      | some norm => some (norm, ls)
      | none => findLocation ls

/-- The `digest:` of the same list item. -/
def findDigest : List (List Char) → Option String
  | [] => none
  | line :: ls =>
    if isTopLevelKeyLine line then none
    else
      let t := trim line
      if (stripPrefix "- " t).isSome || (stripPrefix "location:" t).isSome then none
      else
        match stripPrefix "digest:" t with
        | some value => normalizeYamlValue value
        | none => findDigest ls

/-- `parse_image_identity`. -/
def parseImageIdentity (yaml : String) : Option ImageIdentity := do
  let block ← afterImages (lines yaml.toList)
  let (location, rest) ← findLocation block
  pure { location, digest := findDigest rest }

/-- `is_stale_image`. -/
def isStaleImage (vmImage currentImage : ImageIdentity) : Bool :=
  if vmImage.location ≠ currentImage.location then true
  else match vmImage.digest, currentImage.digest with
    | some a, some b => a != b
    | _, _ => false

end GhaConsumer

import GhaConsumer.Gc.Scalar

/-!
# GC — the `images:` block

`parse_image_identity` reads a text line by line in three scans. On a
text whose `images:` block is a list of flat mappings, what it returns is
a matter of that block: the image of the first item that has one
(`parseImageIdentity_eq`), whatever stands before and after.
-/

namespace GhaConsumer

namespace Block

open Scalar

/-! ## Lines -/

/-- Spaces and tabs. -/
structure Indent where
  text : List Char
  blank : ∀ c ∈ text, c = ' ' ∨ c = '\t'

/-- A key and its value. -/
structure Field where
  key : List Char
  value : List Char
  noColon : ':' ∉ key
  first : ∃ c cs, key = c :: cs ∧ isWhitespace c = false
  noDash : ¬ ['-', ' '] <+: key

def Field.text (f : Field) : List Char := f.key ++ ':' :: f.value

/-- A line that says nothing. -/
inductive Filler where
  | blank (indent : Indent)
  | comment (indent : Indent) (text : List Char)

def Filler.text : Filler → List Char
  | blank indent => indent.text
  | comment indent text => indent.text ++ '#' :: text

/-- A line of an item after its first. -/
inductive Line where
  | field (indent : Indent) (deeper : indent.text ≠ []) (f : Field)
  | filler (f : Filler)

def Line.text : Line → List Char
  | field indent _ f => indent.text ++ f.text
  | filler f => f.text

/-- The fields of these lines. -/
def fieldsOf : List Line → List Field
  | [] => []
  | .field _ _ f :: ls => f :: fieldsOf ls
  | .filler _ :: ls => fieldsOf ls

/-- An item of the list, which begins on a `- key: value` line, however
far it is indented. -/
structure Item where
  indent : Indent
  pad : Indent
  head : Field
  rest : List Line
  /-- No key is there twice. -/
  keys : ((head :: fieldsOf rest).map Field.key).Nodup

def Item.firstLine (it : Item) : List Char :=
  it.indent.text ++ '-' :: ' ' :: (it.pad.text ++ it.head.text)

def Item.lines (it : Item) : List (List Char) := it.firstLine :: it.rest.map Line.text

def Item.fields (it : Item) : List Field := it.head :: fieldsOf it.rest

/-- The lines after the `images:` key, to the next top-level key. -/
structure Images where
  lead : List Filler
  items : List Item

def Images.lines (b : Images) : List (List Char) :=
  b.lead.map Filler.text ++ b.items.flatMap Item.lines

/-! ## The image of a block -/

def locationKey : List Char := "location".toList

def digestKey : List Char := "digest".toList

/-- The usable location of an item, if it has one. -/
def locationIn (fs : List Field) : Option String :=
  (fs.find? fun f => f.key = locationKey).bind fun f => normalizeYamlValue f.value

/-- The digest of these fields. -/
def digestIn (fs : List Field) : Option String :=
  (fs.find? fun f => f.key = digestKey).bind fun f => normalizeYamlValue f.value

/-- The fields of an item after its location. -/
def afterLocation (fs : List Field) : List Field :=
  (fs.dropWhile fun f => f.key ≠ locationKey).tail

/-- The image of an item: its location, and the digest that follows. -/
def Item.image (it : Item) : Option ImageIdentity :=
  (locationIn it.fields).map fun l => ⟨l, digestIn (afterLocation it.fields)⟩

/-- **The image of a block**: that of the first item that has one. -/
def Images.image (b : Images) : Option ImageIdentity := b.items.findSome? Item.image

/-! ## What the scans see of a line -/

variable {f : Field} {ls : List (List Char)} {key : List Char}

theorem Indent.isWhitespace (i : Indent) : ∀ c ∈ i.text, isWhitespace c = true := by
  intro c hc
  rcases i.blank c hc with rfl | rfl <;> decide

/-- No key line begins with a blank. -/
theorem isTopLevelKeyLine_indent {i : Indent} {cs : List Char} (h : i.text ≠ []) :
    isTopLevelKeyLine (i.text ++ cs) = false := by
  cases hi : i.text with
  | nil => exact absurd hi h
  | cons c rest =>
    have hc := i.blank c (by rw [hi]; exact List.mem_cons_self)
    rcases hc with rfl | rfl <;> rfl

theorem isTopLevelKeyLine_mark {i : Indent} {cs : List Char} {c : Char} (h : c = '-' ∨ c = '#') :
    isTopLevelKeyLine (i.text ++ c :: cs) = false := by
  by_cases hi : i.text = []
  · rw [hi]
    rcases h with rfl | rfl <;> rfl
  · exact isTopLevelKeyLine_indent hi

theorem Filler.not_key (f : Filler) : isTopLevelKeyLine f.text = false := by
  cases f with
  | blank i =>
    by_cases hi : i.text = []
    · rw [Filler.text, hi]
      rfl
    · have h := @isTopLevelKeyLine_indent i [] hi
      rwa [List.append_nil] at h
  | comment i text => exact isTopLevelKeyLine_mark (.inr rfl)

/-- Indentation is trimmed off, and the value's end. -/
theorem trim_indent {i : Indent} {c : Char} {cs : List Char} (hc : isWhitespace c = false) :
    trim (i.text ++ c :: cs) = trimEnd (c :: cs) := by
  rw [trim, trimStart_append i.isWhitespace]
  exact congrArg trimEnd (List.dropWhile_cons_of_neg (by simp [hc]))

theorem Field.trimEnd_text (f : Field) : trimEnd f.text = f.key ++ ':' :: trimEnd f.value :=
  trimEnd_append_cons (by decide)

theorem Field.trim_text (i : Indent) (f : Field) :
    trim (i.text ++ f.text) = f.key ++ ':' :: trimEnd f.value := by
  obtain ⟨c, cs, hkey, hc⟩ := f.first
  rw [← f.trimEnd_text, Field.text, hkey, List.cons_append, trim_indent hc]

/-- A key is read up to its colon. -/
theorem isPrefixOf?_key {k k' : List Char} (hk : ':' ∉ k) (hk' : ':' ∉ k') (value : List Char) :
    List.isPrefixOf? (k ++ [':']) (k' ++ ':' :: value) = if k' = k then some value else none := by
  induction k generalizing k' with
  | nil =>
    cases k' with
    | nil => rfl
    | cons c cs =>
      have hne : (':' == c) = false := beq_false_of_ne fun h => hk' (h ▸ List.mem_cons_self)
      rw [if_neg (by simp)]
      simp only [List.nil_append, List.cons_append, List.isPrefixOf?, hne, Bool.false_eq_true,
        if_false]
  | cons a k ih =>
    cases k' with
    | nil =>
      have hne : (a == ':') = false := beq_false_of_ne fun h => hk (h ▸ List.mem_cons_self)
      rw [if_neg (by simp)]
      simp only [List.nil_append, List.cons_append, List.isPrefixOf?, hne, Bool.false_eq_true,
        if_false]
    | cons c cs =>
      simp only [List.cons_append, List.isPrefixOf?]
      by_cases hac : a = c
      · subst hac
        rw [if_pos (beq_self_eq_true a), ih (fun h => hk (List.mem_cons_of_mem _ h))
          fun h => hk' (List.mem_cons_of_mem _ h)]
        simp
      · rw [if_neg (by simpa using hac), if_neg fun h => hac (List.cons.inj h).1.symm]

theorem stripPrefix_location (f : Field) (value : List Char) :
    stripPrefix "location:" (f.key ++ ':' :: value) =
      if f.key = locationKey then some value else none :=
  isPrefixOf?_key (k := locationKey) (by decide) f.noColon value

theorem stripPrefix_digest (f : Field) (value : List Char) :
    stripPrefix "digest:" (f.key ++ ':' :: value) =
      if f.key = digestKey then some value else none :=
  isPrefixOf?_key (k := digestKey) (by decide) f.noColon value

theorem stripPrefix_dash_field (value : List Char) :
    stripPrefix "- " (f.key ++ ':' :: value) = none := by
  rw [stripPrefix]
  cases hp : List.isPrefixOf? "- ".toList (f.key ++ ':' :: value) with
  | none => rfl
  | some rest =>
    rw [List.isPrefixOf?_eq_some_iff_append_eq] at hp
    obtain ⟨c, cs, hkey, -⟩ := f.first
    have hdash := f.noDash
    rw [hkey] at hp hdash
    cases cs with
    | nil => cases hp
    | cons d cs =>
      obtain ⟨hc, hp⟩ := List.cons.inj hp
      obtain ⟨hd, -⟩ := List.cons.inj hp
      exact absurd ⟨cs, by rw [← hc, ← hd]; rfl⟩ hdash

/-- A filler, trimmed, is no line of a field or of an item. -/
theorem stripPrefix_filler (f : Filler) {s : String} {c : Char} {cs : List Char}
    (hs : s.toList = c :: cs) (hc : c ≠ '#') : stripPrefix s (trim f.text) = none := by
  rw [stripPrefix, hs]
  cases f with
  | blank i =>
    have hnil : trim i.text = [] := by
      have h := @trimStart_append i.text [] i.isWhitespace
      rw [List.append_nil] at h
      rw [trim, h]
      rfl
    rw [Filler.text, hnil]
    rfl
  | comment i text =>
    have htrim : trim (Filler.comment i text).text = '#' :: trimEnd text := by
      rw [Filler.text, trim_indent (by decide)]
      exact @trimEnd_append_cons [] text '#' (by decide)
    have hne : (c == '#') = false := beq_false_of_ne hc
    rw [htrim]
    simp only [List.isPrefixOf?, hne, Bool.false_eq_true, if_false]

/-! ## The scans, line by line -/

/-- The second and the third scan. -/
def findImage (ls : List (List Char)) : Option ImageIdentity :=
  (findLocation ls).map fun x => ⟨x.1, findDigest x.2⟩

/-- What a field contributes to the search for a location. -/
def foundIn (f : Field) : Option String :=
  if f.key = locationKey then normalizeYamlValue f.value else none

theorem findImage_filler (f : Filler) : findImage (f.text :: ls) = findImage ls := by
  have hdash : stripPrefix "- " (trim f.text) = none := stripPrefix_filler f rfl (by decide)
  have hloc : stripPrefix "location:" (trim f.text) = none := stripPrefix_filler f rfl (by decide)
  unfold findImage
  rw [findLocation, f.not_key]
  simp only [hdash, Option.map_none, Option.getD_none, hloc, Option.bind_none, Bool.false_eq_true,
    if_false]

theorem findDigest_filler (f : Filler) : findDigest (f.text :: ls) = findDigest ls := by
  have hdash : stripPrefix "- " (trim f.text) = none := stripPrefix_filler f rfl (by decide)
  have hloc : stripPrefix "location:" (trim f.text) = none := stripPrefix_filler f rfl (by decide)
  have hdig : stripPrefix "digest:" (trim f.text) = none := stripPrefix_filler f rfl (by decide)
  rw [findDigest, f.not_key]
  simp only [hdash, hloc, hdig, Option.isSome_none, Bool.or_self, Bool.false_eq_true, if_false]

theorem bind_location (f : Field) :
    (stripPrefix "location:" (f.key ++ ':' :: trimEnd f.value)).bind normalizeYamlValue =
      foundIn f := by
  unfold foundIn
  rw [stripPrefix_location]
  by_cases hk : f.key = locationKey
  · rw [if_pos hk, if_pos hk, Option.bind_some, normalizeYamlValue_trimEnd]
  · rw [if_neg hk, if_neg hk, Option.bind_none]

theorem findImage_field (i : Indent) (hi : i.text ≠ []) (f : Field) :
    findImage ((i.text ++ f.text) :: ls) =
      match foundIn f with
      | some l => some ⟨l, findDigest ls⟩
      | none => findImage ls := by
  unfold findImage
  rw [findLocation, isTopLevelKeyLine_indent hi]
  simp only [f.trim_text, stripPrefix_dash_field, Option.map_none, Option.getD_none, bind_location,
    Bool.false_eq_true, if_false]
  cases foundIn f <;> rfl

/-- The first line of an item, without its blanks. -/
theorem Item.trim_firstLine (it : Item) : trim it.firstLine =
    '-' :: ' ' :: (it.pad.text ++ (it.head.key ++ ':' :: trimEnd it.head.value)) := by
  have happ : it.firstLine = it.indent.text ++
      '-' :: (' ' :: (it.pad.text ++ it.head.key) ++ ':' :: it.head.value) := by
    simp only [Item.firstLine, Field.text, List.cons_append, List.append_assoc]
  rw [happ, trim_indent (by decide), ← List.cons_append, ← List.cons_append,
    trimEnd_append_cons (by decide)]
  simp only [List.cons_append, List.append_assoc]

/-- What follows the dash is the field. -/
theorem Item.afterDash (it : Item) : ((stripPrefix "- " (trim it.firstLine)).map trimStart).getD
    (trim it.firstLine) = it.head.key ++ ':' :: trimEnd it.head.value := by
  have hstrip : ∀ cs, stripPrefix "- " ('-' :: ' ' :: cs) = some cs := fun cs => rfl
  obtain ⟨c, cs, hkey, hc⟩ := it.head.first
  rw [it.trim_firstLine, hstrip, Option.map_some, Option.getD_some,
    trimStart_append it.pad.isWhitespace, hkey, List.cons_append]
  exact List.dropWhile_cons_of_neg (by simp [hc])

theorem findImage_firstLine (it : Item) :
    findImage (it.firstLine :: ls) =
      match foundIn it.head with
      | some l => some ⟨l, findDigest ls⟩
      | none => findImage ls := by
  have hkey : isTopLevelKeyLine it.firstLine = false := isTopLevelKeyLine_mark (.inl rfl)
  unfold findImage
  rw [findLocation, hkey]
  simp only [it.afterDash, bind_location, Bool.false_eq_true, if_false]
  cases foundIn it.head <;> rfl

/-- The next item ends the search for a digest. -/
theorem findDigest_firstLine (it : Item) : findDigest (it.firstLine :: ls) = none := by
  have hkey : isTopLevelKeyLine it.firstLine = false := isTopLevelKeyLine_mark (.inl rfl)
  have hdash : (stripPrefix "- " (trim it.firstLine)).isSome = true := by
    rw [it.trim_firstLine]
    rfl
  rw [findDigest, hkey]
  simp only [hdash, Bool.true_or, Bool.false_eq_true, if_false, if_true]

theorem findDigest_field (i : Indent) (hi : i.text ≠ []) (hloc : f.key ≠ locationKey) :
    findDigest ((i.text ++ f.text) :: ls) =
      if f.key = digestKey then normalizeYamlValue f.value else findDigest ls := by
  rw [findDigest, isTopLevelKeyLine_indent hi]
  simp only [f.trim_text, stripPrefix_dash_field, stripPrefix_location, stripPrefix_digest,
    if_neg hloc, Option.isSome_none, Bool.or_self, Bool.false_eq_true, if_false]
  by_cases hd : f.key = digestKey
  · simp only [if_pos hd, normalizeYamlValue_trimEnd]
  · simp only [if_neg hd]

/-! ## The scans, item by item -/

/-- The fields after a location give its digest. -/
theorem findDigest_lines {rest : List Line} (hloc : ∀ f ∈ fieldsOf rest, f.key ≠ locationKey)
    (hend : findDigest ls = none) :
    findDigest (rest.map Line.text ++ ls) = digestIn (fieldsOf rest) := by
  induction rest with
  | nil => exact hend
  | cons line rest ih =>
    cases line with
    | filler f =>
      rw [List.map_cons, List.cons_append]
      exact (findDigest_filler f).trans (ih hloc)
    | field i hi f =>
      have hf := hloc f List.mem_cons_self
      rw [List.map_cons, List.cons_append]
      refine (findDigest_field i hi hf).trans ?_
      rw [ih fun g hg => hloc g (List.mem_cons_of_mem _ hg)]
      change _ = digestIn (f :: fieldsOf rest)
      unfold digestIn
      by_cases hd : f.key = digestKey
      · rw [if_pos hd, List.find?_cons_of_pos (by simpa using hd), Option.bind_some]
      · rw [if_neg hd, List.find?_cons_of_neg (by simpa using hd)]

/-- Without a location the lines are passed over. -/
theorem findImage_lines_of_none {rest : List Line}
    (hloc : ∀ f ∈ fieldsOf rest, f.key ≠ locationKey) :
    findImage (rest.map Line.text ++ ls) = findImage ls := by
  induction rest with
  | nil => rfl
  | cons line rest ih =>
    cases line with
    | filler f =>
      rw [List.map_cons, List.cons_append]
      exact (findImage_filler f).trans (ih hloc)
    | field i hi f =>
      have hf : foundIn f = none := if_neg (hloc f List.mem_cons_self)
      rw [List.map_cons, List.cons_append]
      refine (findImage_field i hi f).trans ?_
      rw [hf]
      exact ih fun g hg => hloc g (List.mem_cons_of_mem _ hg)

/-- The image these fields give. -/
def imageIn (fs : List Field) : Option ImageIdentity :=
  (locationIn fs).map fun l => ⟨l, digestIn (afterLocation fs)⟩

theorem imageIn_cons_of_ne {fs : List Field} (h : f.key ≠ locationKey) :
    imageIn (f :: fs) = imageIn fs := by
  have hfind : (f :: fs).find? (fun f => f.key = locationKey) =
      fs.find? fun f => f.key = locationKey := List.find?_cons_of_neg (by simpa using h)
  have hdrop : (f :: fs).dropWhile (fun f => f.key ≠ locationKey) =
      fs.dropWhile fun f => f.key ≠ locationKey := List.dropWhile_cons_of_pos (by simpa using h)
  unfold imageIn locationIn afterLocation
  rw [hfind, hdrop]

theorem imageIn_cons_of_eq {fs : List Field} (h : f.key = locationKey) :
    imageIn (f :: fs) = (normalizeYamlValue f.value).map fun l => ⟨l, digestIn fs⟩ := by
  have hfind : (f :: fs).find? (fun f => f.key = locationKey) = some f :=
    List.find?_cons_of_pos (by simpa using h)
  have hdrop : (f :: fs).dropWhile (fun f => f.key ≠ locationKey) = f :: fs :=
    List.dropWhile_cons_of_neg (by simpa using h)
  unfold imageIn locationIn afterLocation
  rw [hfind, hdrop]
  rfl

theorem ne_location_of_nodup {fs : List Field} (hk : ((f :: fs).map Field.key).Nodup)
    (h : f.key = locationKey) : ∀ g ∈ fs, g.key ≠ locationKey := by
  intro g hg heq
  rw [List.map_cons, List.nodup_cons] at hk
  exact hk.1 (h.trans heq.symm ▸ List.mem_map_of_mem hg)

/-- One field, and the lines after it: a location ends the search there,
or the rest is searched. -/
theorem search_field {rest : List Line} {b : Option ImageIdentity}
    (hk : ((f :: fieldsOf rest).map Field.key).Nodup) (hend : findDigest ls = none)
    (hrest : findImage (rest.map Line.text ++ ls) =
      (imageIn (fieldsOf rest)).orElse fun _ => b) (hls : findImage ls = b) :
    (match foundIn f with
      | some l => some ⟨l, findDigest (rest.map Line.text ++ ls)⟩
      | none => findImage (rest.map Line.text ++ ls)) =
        (imageIn (f :: fieldsOf rest)).orElse fun _ => b := by
  by_cases hf : f.key = locationKey
  · have hothers := ne_location_of_nodup hk hf
    rw [imageIn_cons_of_eq hf, foundIn, if_pos hf, findDigest_lines hothers hend,
      findImage_lines_of_none hothers, hls]
    cases normalizeYamlValue f.value <;> rfl
  · rw [imageIn_cons_of_ne hf, foundIn, if_neg hf]
    exact hrest

theorem findImage_lines {rest : List Line} {b : Option ImageIdentity}
    (hk : ((fieldsOf rest).map Field.key).Nodup) (hend : findDigest ls = none)
    (hls : findImage ls = b) :
    findImage (rest.map Line.text ++ ls) = (imageIn (fieldsOf rest)).orElse fun _ => b := by
  induction rest with
  | nil => exact hls
  | cons line rest ih =>
    cases line with
    | filler f =>
      rw [List.map_cons, List.cons_append]
      exact (findImage_filler f).trans (ih hk)
    | field i hi f =>
      have hk' : ((fieldsOf rest).map Field.key).Nodup := (List.nodup_cons.mp hk).2
      rw [List.map_cons, List.cons_append]
      exact (findImage_field i hi f).trans (search_field hk hend (ih hk') hls)

/-- **One item**: its image, or else what follows. -/
theorem findImage_item (it : Item) (hend : findDigest ls = none) :
    findImage (it.lines ++ ls) = it.image.orElse fun _ => findImage ls := by
  have hk' : ((fieldsOf it.rest).map Field.key).Nodup := (List.nodup_cons.mp it.keys).2
  have hrest := findImage_lines hk' hend (b := findImage ls) rfl
  rw [Item.lines, List.cons_append]
  exact (findImage_firstLine it).trans (search_field it.keys hend hrest rfl)

/-- The list of items, and after it the end of the block. -/
theorem findImage_items {items : List Item} (hend : findDigest ls = none)
    (hls : findImage ls = none) :
    findImage (items.flatMap Item.lines ++ ls) = items.findSome? Item.image ∧
      findDigest (items.flatMap Item.lines ++ ls) = none := by
  induction items with
  | nil => exact ⟨hls, hend⟩
  | cons it items ih =>
    rw [List.flatMap_cons, List.append_assoc]
    refine ⟨?_, findDigest_firstLine it⟩
    rw [findImage_item it ih.2, ih.1, List.findSome?_cons]
    cases it.image <;> rfl

/-! ## The whole text -/

theorem afterImages_lead {lead : List (List Char)} {line : List Char}
    (hlead : ∀ l ∈ lead, isTopLevelKey l "images" = false)
    (hline : isTopLevelKey line "images" = true) :
    afterImages (lead ++ line :: ls) = some ls := by
  induction lead with
  | nil => rw [List.nil_append, afterImages, if_pos hline]
  | cons l lead ih =>
    rw [List.cons_append, afterImages, hlead l List.mem_cons_self]
    simp only [Bool.false_eq_true, if_false]
    exact ih fun l' hl' => hlead l' (List.mem_cons_of_mem _ hl')

/-- The next top-level key, or the end of the text, ends the block. -/
theorem find_of_key (h : ∀ l, ls.head? = some l → isTopLevelKeyLine l = true) :
    findImage ls = none ∧ findDigest ls = none := by
  cases ls with
  | nil => exact ⟨rfl, rfl⟩
  | cons l ls =>
    have hl := h l rfl
    unfold findImage
    rw [findLocation, findDigest, hl]
    exact ⟨rfl, rfl⟩

/-- **Only the block matters.** Where no line before the `images:` key is
one, and what follows the block is another top-level key or nothing,
`parse_image_identity` returns the image of the block: that of the first
item with a usable location, with the digest that follows it in the same
item, and none where no item has one. -/
theorem parseImageIdentity_eq {yaml : String} {before after : List (List Char)}
    {line : List Char} {b : Images}
    (hyaml : lines yaml.toList = before ++ line :: (b.lines ++ after))
    (hbefore : ∀ l ∈ before, isTopLevelKey l "images" = false)
    (hline : isTopLevelKey line "images" = true)
    (hafter : ∀ l, after.head? = some l → isTopLevelKeyLine l = true) :
    parseImageIdentity yaml = b.image := by
  obtain ⟨himage, hdigest⟩ := find_of_key hafter
  have hlead : ∀ fs : List Filler, findImage (fs.map Filler.text ++
      (b.items.flatMap Item.lines ++ after)) = b.image := by
    intro fs
    induction fs with
    | nil => exact (findImage_items hdigest himage).1
    | cons f fs ih => exact (findImage_filler f).trans ih
  have hblock := hlead b.lead
  rw [← List.append_assoc] at hblock
  unfold parseImageIdentity
  rw [hyaml, afterImages_lead hbefore hline]
  refine Eq.trans ?_ hblock
  show (findLocation (b.lines ++ after)).bind _ = (findLocation (b.lines ++ after)).map _
  cases findLocation (b.lines ++ after) <;> rfl

/-- Two spaces. -/
def two : Indent where
  text := "  ".toList
  blank c hc := .inl (by simpa using hc)

def flush : Indent := ⟨[], by simp⟩

def locationField (value : String) : Field :=
  ⟨locationKey, value.toList, by decide, ⟨'l', "ocation".toList, rfl, by decide⟩, by decide⟩

def digestField (value : String) : Field :=
  ⟨digestKey, value.toList, by decide, ⟨'d', "igest".toList, rfl, by decide⟩, by decide⟩

/-- An item without a usable location, and one with a digest. -/
def twoImages : Images where
  lead := [.comment two " pinned".toList]
  items := [
    ⟨flush, flush, locationField "", [.field two (by decide) (digestField " sha256:1")], by decide⟩,
    ⟨flush, flush, digestField " sha256:2", [.field two (by decide) (locationField " /b.img")],
      by decide⟩]

/-- An instance file around the block. -/
def instanceYaml : String :=
  "mounts:\n- location: /home\nimages:\n  # pinned\n- location:\n  digest: sha256:1\n" ++
    "- digest: sha256:2\n  location: /b.img\ncontainerd:\n  digest: sha256:3\n"

theorem lines_instanceYaml : lines instanceYaml.toList =
    ["mounts:".toList, "- location: /home".toList] ++
      "images:".toList :: (twoImages.lines ++
        ["containerd:".toList, "  digest: sha256:3".toList]) := by decide +kernel

/-- The digest before a location is not taken, nor one of another item or
of another section. -/
theorem parseImageIdentity_two : parseImageIdentity instanceYaml = some ⟨"/b.img", none⟩ := by
  have himage : twoImages.image = some ⟨"/b.img", none⟩ := by decide +kernel
  have hbefore : ∀ l ∈ ["mounts:".toList, "- location: /home".toList],
      isTopLevelKey l "images" = false := by decide +kernel
  have hafter : ∀ l, ["containerd:".toList, "  digest: sha256:3".toList].head? = some l →
      isTopLevelKeyLine l = true := by
    intro l hl
    cases hl
    decide
  rw [← himage]
  exact parseImageIdentity_eq lines_instanceYaml hbefore (by decide) hafter

end Block

end GhaConsumer

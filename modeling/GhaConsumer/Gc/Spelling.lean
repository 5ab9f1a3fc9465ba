import GhaConsumer.Gc.Scalar

/-!
# GC — one value, several spellings

A template and a realized `lima.yaml` may write one value plain or in
quotes, with a comment or without. In quotes it is always read as it is.
Written plain it is read by a scanner that takes an apostrophe inside it
for a quote, and a `#` after a quote or a tab for a comment: whether all
spellings come to the same is a matter of those (`agree_iff`).
-/

namespace GhaConsumer

namespace Scalar

variable {v d cs raw : List Char} {q : Char}

/-! ## Spellings -/

/-- The characters that mean something at the start of a YAML scalar,
quotes among them. -/
def indicators : List Char := "-?:,[]\x7b\x7d#&*!|>%@\x60\x22\x27".toList

/-- The value may be written plain. -/
structure IsPlain (v : List Char) : Prop where
  first : ∀ c, v.head? = some c → c ∉ indicators
  noComment : ¬ [' ', '#'] <:+: v
  noKey : ¬ [':', ' '] <:+: v

inductive Style where
  | plain
  | double
  | single
  deriving DecidableEq, Repr

/-- The values a style can write as they are. -/
def Style.Allows : Style → List Char → Prop
  | .plain, v => IsPlain v
  | .double, v => '"' ∉ v ∧ '\\' ∉ v
  | .single, v => apostrophe ∉ v

def Style.write : Style → List Char → List Char
  | .plain, v => v
  | .double, v => '"' :: v ++ ['"']
  | .single, v => apostrophe :: v ++ [apostrophe]

/-- A spelling of the value. -/
structure Written (v : List Char) where
  style : Style
  allowed : style.Allows v
  comment : Option (List Char)

/-- A text with a comment after it. -/
def withComment (text : List Char) : Option (List Char) → List Char
  | none => text
  | some comment => text ++ ' ' :: '#' :: comment

def Written.text (w : Written v) : List Char := withComment (w.style.write v) w.comment

/-- All spellings are read alike. -/
def Agree (v : List Char) : Prop :=
  ∀ a b : Written v, normalizeYamlValue a.text = normalizeYamlValue b.text

/-! ## In quotes -/

theorem foldl_track_some (h : q ∉ cs) : cs.foldl track (some q) = some q := by
  induction cs with
  | nil => rfl
  | cons c cs ih =>
    have hne : c ≠ q := fun heq => h (heq ▸ List.mem_cons_self)
    rw [List.foldl_cons, track, if_neg hne]
    exact ih fun hmem => h (List.mem_cons_of_mem _ hmem)

theorem openQuote_cons (hq : isQuote q = true) (h : q ∉ cs) : openQuote (q :: cs) = some q := by
  show cs.foldl track (track none q) = some q
  rw [track, if_pos hq, foldl_track_some h]

theorem openQuote_quoted (hq : isQuote q = true) (h : q ∉ v) :
    openQuote (q :: v ++ [q]) = none := by
  rw [openQuote_concat, openQuote_cons hq h, track, if_pos rfl]

theorem hash_not_quote : isQuote '#' = false := by decide

theorem commentFree_quoted (hq : isQuote q = true) (h : q ∉ v) : CommentFree (q :: v ++ [q]) := by
  have hne : '#' ≠ q := fun heq => by
    rw [← heq, hash_not_quote] at hq
    cases hq
  intro kept rest heq hb
  cases kept with
  | nil =>
    rw [List.nil_append, List.cons_append] at heq
    exact hne (List.cons.inj heq).1.symm
  | cons c kept =>
    obtain ⟨rfl, heq⟩ := List.cons.inj heq
    -- the quote is still open
    have hmem : q ∉ kept := by
      rcases List.eq_nil_or_concat rest with rfl | ⟨rest, d, rfl⟩
      · exact absurd (List.singleton_inj.mp (List.append_inj' heq rfl).2).symm hne
      · rw [List.concat_eq_append, ← List.cons_append, ← List.append_assoc] at heq
        obtain ⟨-, rfl⟩ := List.cons.inj (List.append_inj' heq rfl).1
        exact fun hk => h (List.mem_append_left _ hk)
    have hopen := hb.1
    rw [List.nil_append, openQuote_cons hq hmem] at hopen
    cases hopen

/-! ## Comments after it -/

theorem commentFree_concat {c : Char} (h : CommentFree cs) (hc : c = '#' → ¬ Begins cs) :
    CommentFree (cs ++ [c]) := by
  intro kept rest heq hb
  rcases List.eq_nil_or_concat rest with rfl | ⟨rest, d, rfl⟩
  · obtain ⟨rfl, hcs⟩ := List.append_inj' heq rfl
    exact hc (List.singleton_inj.mp hcs) hb
  · rw [List.concat_eq_append, ← List.cons_append, ← List.append_assoc] at heq
    exact h kept rest (List.append_inj' heq rfl).1 hb

/-- Where every quote is closed, a comment is what it should be. -/
theorem stripInlineComment_withComment (hfree : CommentFree cs) (hclosed : openQuote cs = none)
    (ht : trimEnd cs = cs) (comment : Option (List Char)) :
    stripInlineComment (withComment cs comment) = cs := by
  cases comment with
  | none => exact stripInlineComment_eq_self hfree
  | some comment =>
    have hopen : openQuote (cs ++ [' ']) = none := by
      rw [openQuote_concat, hclosed]
      rfl
    have hbegins : Begins (cs ++ [' ']) := by
      refine ⟨hopen, ?_⟩
      rw [List.reverse_append]
      rfl
    have hstrip := @stripInlineComment_of_begins (cs ++ [' ']) comment
      (commentFree_concat hfree fun h => absurd h (by decide)) hbegins
    rw [List.append_assoc] at hstrip
    refine hstrip.trans ?_
    rw [trimEnd_append_blank (by decide), ht]

/-! ## Without its quotes -/

theorem isWhitespace_of_isQuote (hq : isQuote q = true) : isWhitespace q = false := by
  rcases isQuote_iff.mp hq with rfl | rfl <;> decide

theorem unquote_singleton (s : String) (hs : s.toList = [q]) : unquote s (q :: v ++ [q]) = some v := by
  have hpre : stripPrefix s (q :: v ++ [q]) = some (v ++ [q]) := by
    rw [stripPrefix, hs, List.isPrefixOf?_eq_some_iff_append_eq]
    rfl
  have hsuf : stripSuffix s (v ++ [q]) = some v := by
    rw [stripSuffix, hs, List.isSuffixOf?_eq_some_iff_append_eq]
  rw [unquote, hpre, Option.bind_some, hsuf]

theorem unquote_eq_none (s : String) (hs : s.toList = [q]) (h : v.head? ≠ some q) :
    unquote s v = none := by
  have hpre : stripPrefix s v = none := by
    cases hp : stripPrefix s v with
    | none => rfl
    | some rest =>
      rw [stripPrefix, hs, List.isPrefixOf?_eq_some_iff_append_eq] at hp
      rw [← hp] at h
      exact absurd rfl h
  rw [unquote, hpre, Option.bind_none]

theorem bare_quoted (hq : isQuote q = true) (h : q ∉ v) (comment : Option (List Char)) :
    bare (withComment (q :: v ++ [q]) comment) = v := by
  have hblank := isWhitespace_of_isQuote hq
  have htrim : Trimmed (q :: v ++ [q]) := trimmed_cons_append hblank hblank
  unfold bare
  rw [stripInlineComment_withComment (commentFree_quoted hq h) (openQuote_quoted hq h)
    (trimEnd_eq_self htrim.last), htrim.trim_eq]
  dsimp only
  rcases isQuote_iff.mp hq with rfl | rfl
  · rw [unquote_singleton (q := '"') "\"" rfl]
    rfl
  · rw [unquote_eq_none (q := '"') "\"" rfl (by simp [apostrophe]),
      unquote_singleton (q := apostrophe) (String.singleton apostrophe) rfl]
    rfl

/-- What does not begin with a quote keeps what it has. -/
theorem bare_of_strip (hs : stripInlineComment raw = cs) (ht : Trimmed cs)
    (hfirst : ∀ c, cs.head? = some c → isQuote c = false) : bare raw = cs := by
  have hnot : ∀ q, isQuote q = true → cs.head? ≠ some q := fun q hq h => by
    rw [hfirst q h] at hq
    cases hq
  unfold bare
  rw [hs, ht.trim_eq]
  dsimp only
  rw [unquote_eq_none "\"" (q := '"') rfl (hnot _ (by decide)),
    unquote_eq_none (String.singleton apostrophe) (q := apostrophe) rfl (hnot _ (by decide))]
  rfl

/-! ## Written plain -/

theorem isQuote_of_first (h : IsPlain v) {c : Char} (hc : v.head? = some c) :
    isQuote c = false := by
  have hmem := h.first c hc
  rw [Bool.eq_false_iff]
  intro hq
  rcases isQuote_iff.mp hq with rfl | rfl
  · exact hmem (by decide)
  · exact hmem (by decide)

/-- No comment begins in the value, and no quote is left open in it. -/
structure Steady (v : List Char) : Prop where
  free : CommentFree v
  closed : openQuote v = none

/-- A comment begins in the value, but what is left is read like all of
it, or no quotes can hold the value. -/
def CutAlike (v : List Char) : Prop :=
  ∃ kept rest, v = kept ++ '#' :: rest ∧ CommentFree kept ∧ Begins kept ∧
    (¬ Style.double.Allows v ∧ ¬ Style.single.Allows v ∨ lastPart (trimEnd kept) = lastPart v)

/-- What is asked of a value that may be written plain. -/
def OneReading (v : List Char) : Prop := IsPlain v → Steady v ∨ CutAlike v

theorem normalize_quoted (hv : Trimmed v) (w : Written v) (hw : w.style ≠ .plain) :
    normalizeYamlValue w.text = reading v := by
  obtain ⟨style, allowed, comment⟩ := w
  have hbare : bare (withComment (style.write v) comment) = v := by
    cases style with
    | plain => exact absurd rfl hw
    | double => exact bare_quoted (by decide) allowed.1 comment
    | single => exact bare_quoted (by decide) allowed comment
  show normalizeYamlValue (withComment (style.write v) comment) = _
  rw [normalizeYamlValue_eq (by rw [hbare, hv.trim_eq]), hbare]

theorem normalize_steady (hv : Trimmed v) (hp : IsPlain v) (hs : Steady v)
    (comment : Option (List Char)) : normalizeYamlValue (withComment v comment) = reading v := by
  have hstrip := stripInlineComment_withComment hs.free hs.closed (trimEnd_eq_self hv.last) comment
  have hbare := bare_of_strip hstrip hv fun c hc => isQuote_of_first hp hc
  rw [normalizeYamlValue_eq (by rw [hbare, hv.trim_eq]), hbare]

/-- The part before a comment begins as the value does. -/
theorem trimmed_kept {kept rest : List Char} (hv : Trimmed v) (hp : IsPlain v)
    (heq : v = kept ++ '#' :: rest) : Trimmed (trimEnd kept) ∧
      ∀ c, (trimEnd kept).head? = some c → isQuote c = false := by
  obtain ⟨tail, htail⟩ := trimEnd_prefix kept
  have hhead : ∀ c, (trimEnd kept).head? = some c → v.head? = some c := by
    intro c hc
    rw [heq, ← htail, List.append_assoc, List.head?_append, hc]
    rfl
  exact ⟨⟨fun c hc => hv.first c (hhead c hc), fun c hc => last_trimEnd hc⟩,
    fun c hc => isQuote_of_first hp (hhead c hc)⟩

theorem normalize_cut {kept rest : List Char} (hv : Trimmed v) (hp : IsPlain v)
    (heq : v = kept ++ '#' :: rest) (hfree : CommentFree kept) (hb : Begins kept)
    (comment : Option (List Char)) :
    normalizeYamlValue (withComment v comment) = reading (trimEnd kept) := by
  obtain ⟨htrim, hfirst⟩ := trimmed_kept hv hp heq
  have hstrip : stripInlineComment (withComment v comment) = trimEnd kept := by
    rw [heq]
    cases comment with
    | none => exact stripInlineComment_of_begins hfree hb
    | some comment =>
      show stripInlineComment (kept ++ '#' :: rest ++ ' ' :: '#' :: comment) = _
      rw [List.append_assoc]
      exact stripInlineComment_of_begins hfree hb
  have hbare := bare_of_strip hstrip htrim hfirst
  rw [normalizeYamlValue_eq (by rw [hbare, htrim.trim_eq]), hbare]

/-- A comment after a quote left open is part of the value. -/
theorem normalize_open (hv : Trimmed v) (hp : IsPlain v) (hfree : CommentFree v)
    (ho : openQuote v = some q) :
    normalizeYamlValue (withComment v (some [])) = reading (v ++ [' ', '#']) := by
  have hne : v ≠ [] := by
    rintro rfl
    cases ho
  have hspace : ' ' ≠ q := by
    rintro rfl
    exact absurd (isQuote_of_openQuote ho) (by decide)
  have hopen : openQuote (v ++ [' ']) = some q := by rw [openQuote_concat, ho, track, if_neg hspace]
  have hfree' : CommentFree (v ++ [' ', '#']) := by
    have hspaced := commentFree_concat (c := ' ') hfree fun h => absurd h (by decide)
    have hhash := commentFree_concat (c := '#') hspaced fun _ hb => by
      rw [hb.1] at hopen
      cases hopen
    rwa [List.append_assoc] at hhash
  have hhead : ∀ c, (v ++ [' ', '#']).head? = some c → v.head? = some c := by
    intro c hc
    rwa [List.head?_append_of_ne_nil _ hne] at hc
  have htrim : Trimmed (v ++ [' ', '#']) := by
    refine ⟨fun c hc => hv.first c (hhead c hc), fun c hc => ?_⟩
    rw [List.getLast?_append] at hc
    cases hc
    decide
  have hbare := bare_of_strip (stripInlineComment_eq_self hfree') htrim fun c hc =>
    isQuote_of_first hp (hhead c hc)
  show normalizeYamlValue (v ++ [' ', '#']) = _
  rw [normalizeYamlValue_eq (by rw [hbare, htrim.trim_eq]), hbare]

/-! ## When they agree -/

theorem agree_of_oneReading (hv : Trimmed v) (h : OneReading v) : Agree v := by
  have hplain : ∀ w : Written v, w.style = .plain → ∃ hp : IsPlain v,
      w.text = withComment v w.comment := by
    rintro ⟨style, allowed, comment⟩ rfl
    exact ⟨allowed, rfl⟩
  by_cases hcut : IsPlain v ∧ CutAlike v
  · obtain ⟨hp, kept, rest, heq, hfree, hb, hsame⟩ := hcut
    have hread : ∀ w : Written v, w.style = .plain →
        normalizeYamlValue w.text = reading (trimEnd kept) := by
      intro w hw
      obtain ⟨-, htext⟩ := hplain w hw
      rw [htext]
      exact normalize_cut hv hp heq hfree hb w.comment
    rcases hsame with ⟨hdouble, hsingle⟩ | hsame
    · -- no spelling is in quotes
      have hall : ∀ w : Written v, w.style = .plain := by
        rintro ⟨style, allowed, comment⟩
        cases style with
        | plain => rfl
        | double => exact absurd allowed hdouble
        | single => exact absurd allowed hsingle
      intro a b
      rw [hread a (hall a), hread b (hall b)]
    · have hall : ∀ w : Written v, normalizeYamlValue w.text = reading v := by
        intro w
        by_cases hw : w.style = .plain
        · rw [hread w hw, reading_eq_iff.mpr hsame]
        · exact normalize_quoted hv w hw
      intro a b
      rw [hall a, hall b]
  · have hall : ∀ w : Written v, normalizeYamlValue w.text = reading v := by
      intro w
      by_cases hw : w.style = .plain
      · obtain ⟨hp, htext⟩ := hplain w hw
        have hs : Steady v := (h hp).resolve_right fun hc => hcut ⟨hp, hc⟩
        rw [htext]
        exact normalize_steady hv hp hs w.comment
      · exact normalize_quoted hv w hw
    intro a b
    rw [hall a, hall b]

theorem oneReading_of_agree (hv : Trimmed v) (h : Agree v) : OneReading v := by
  intro hp
  rcases commentFree_or_exists v with hfree | ⟨kept, rest, heq, hfree, hb⟩
  · left
    refine ⟨hfree, ?_⟩
    by_contra hopen
    obtain ⟨q, ho⟩ := Option.ne_none_iff_exists'.mp hopen
    have hread : normalizeYamlValue v = reading v := by
      have hbare := bare_of_strip (stripInlineComment_eq_self hfree) hv fun c hc =>
        isQuote_of_first hp hc
      rw [normalizeYamlValue_eq (by rw [hbare, hv.trim_eq]), hbare]
    have hsame : reading v = reading (v ++ [' ', '#']) := by
      rw [← hread, ← normalize_open hv hp hfree ho]
      exact h ⟨.plain, hp, none⟩ ⟨.plain, hp, some []⟩
    -- the second is the longer
    have hlen := congrArg List.length (reading_eq_iff.mp hsame)
    rw [lastPart_append (by decide) (by decide), List.length_append] at hlen
    simp at hlen
  · right
    refine ⟨kept, rest, heq, hfree, hb, ?_⟩
    have hread := normalize_cut hv hp heq hfree hb none
    by_cases hdouble : Style.double.Allows v
    · have hquoted := normalize_quoted hv ⟨.double, hdouble, none⟩ (by simp)
      exact .inr (reading_eq_iff.mp (hread.symm.trans
        ((h ⟨.plain, hp, none⟩ ⟨.double, hdouble, none⟩).trans hquoted)))
    · by_cases hsingle : Style.single.Allows v
      · have hquoted := normalize_quoted hv ⟨.single, hsingle, none⟩ (by simp)
        exact .inr (reading_eq_iff.mp (hread.symm.trans
          ((h ⟨.plain, hp, none⟩ ⟨.single, hsingle, none⟩).trans hquoted)))
      · exact .inl ⟨hdouble, hsingle⟩

/-! ## Images -/

/-- The image with this location and this digest, as the texts have them. -/
def imageOf (location : List Char) (digest : Option (List Char)) : Option ImageIdentity :=
  (normalizeYamlValue location).map fun l => ⟨l, digest.bind normalizeYamlValue⟩

/-- However its location and digest are written, an image is not stale. -/
def NeverStale (location digest : List Char) : Prop :=
  ∀ (a b : Written location) (da db : Option (Written digest)) (i j : ImageIdentity),
    imageOf a.text (da.map Written.text) = some i →
      imageOf b.text (db.map Written.text) = some j → isStaleImage i j = false

theorem neverStale_of_agree (hv : Agree v) (hd : Agree d) : NeverStale v d := by
  intro a b da db i j hi hj
  obtain ⟨l, hl, rfl⟩ := Option.map_eq_some_iff.mp hi
  obtain ⟨l', hl', rfl⟩ := Option.map_eq_some_iff.mp hj
  rw [hv a b, hl'] at hl
  cases hl
  unfold isStaleImage
  rw [if_neg (not_not.mpr rfl)]
  cases da with
  | none => rfl
  | some da =>
    cases db with
    | none => cases (Option.map Written.text (some da)).bind normalizeYamlValue <;> rfl
    | some db =>
      simp only [Option.map_some, Option.bind_some, hd da db]
      cases normalizeYamlValue db.text with
      | none => rfl
      | some x => exact bne_self_eq_false x

/-- **When the spellings of a value agree**: where it may be written plain,
if and only if no comment begins in it and no quote is left open in it, or
the comment that begins in it makes no difference. And an image whose
location and digest are such is never stale for the way it is written. -/
theorem agree_iff (hv : trim v = v) : (Agree v ↔ OneReading v) ∧
    ∀ d, trim d = d → OneReading v → OneReading d → NeverStale v d := by
  have htrim := trimmed_of_trim hv
  refine ⟨⟨oneReading_of_agree htrim, agree_of_oneReading htrim⟩, fun d hd h h' => ?_⟩
  exact neverStale_of_agree (agree_of_oneReading htrim h)
    (agree_of_oneReading (trimmed_of_trim hd) h')

theorem agree_img : (Agree "/img.raw".toList ↔ OneReading "/img.raw".toList) ∧
    ∀ d, trim d = d → OneReading "/img.raw".toList → OneReading d →
      NeverStale "/img.raw".toList d :=
  agree_iff (by decide)

/-- **An apostrophe makes an image stale**: written plain with a comment,
and without. -/
theorem apostrophe_stale : trim "/it's.raw".toList = "/it's.raw".toList ∧
    ¬ Agree "/it's.raw".toList ∧ ¬ NeverStale "/it's.raw".toList [] := by
  have hp : IsPlain "/it's.raw".toList := by
    refine ⟨fun c hc => ?_, by decide, by decide⟩
    cases hc
    decide
  have hdiff : normalizeYamlValue "/it's.raw".toList ≠
      normalizeYamlValue (withComment "/it's.raw".toList (some " pinned".toList)) := by decide
  refine ⟨by decide, fun h => ?_, fun h => ?_⟩
  · exact hdiff (h ⟨.plain, hp, none⟩ ⟨.plain, hp, some " pinned".toList⟩)
  · have hbare : imageOf "/it's.raw".toList none = some ⟨"/it's.raw", none⟩ := by decide
    have hpinned : imageOf (withComment "/it's.raw".toList (some " pinned".toList)) none =
        some ⟨"/it's.raw # pinned", none⟩ := by decide
    have hstale := h ⟨.plain, hp, none⟩ ⟨.plain, hp, some " pinned".toList⟩ none none _ _ hbare
      hpinned
    exact absurd hstale (by decide)

end Scalar

end GhaConsumer

import GhaConsumer.Gc.Image
import Mathlib.Data.List.DropRight
import Mathlib.Data.List.TakeWhile

/-!
# GC — scalars

What `normalize_yaml_value` makes of a text: where a comment begins in it
(`Begins`), which quote is open (`openQuote`), and what is left when the
comment, the blanks around, the quotes and the scheme are gone.
-/

namespace GhaConsumer

namespace Scalar

variable {cs ds v text : List Char} {c q : Char}

/-! ## Blanks around a text -/

/-- No blank begins or ends the text. -/
structure Trimmed (cs : List Char) : Prop where
  first : ∀ c, cs.head? = some c → isWhitespace c = false
  last : ∀ c, cs.getLast? = some c → isWhitespace c = false

/-- Trimming at the end is a matter of the end. -/
theorem trimEnd_eq (cs : List Char) : trimEnd cs = cs.rdropWhile isWhitespace := rfl

theorem trimStart_eq_self (h : ∀ c, cs.head? = some c → isWhitespace c = false) :
    trimStart cs = cs := by
  cases cs with
  | nil => rfl
  | cons c cs => exact List.dropWhile_cons_of_neg (by simp [h c rfl])

theorem trimEnd_eq_self (h : ∀ c, cs.getLast? = some c → isWhitespace c = false) :
    trimEnd cs = cs := by
  unfold trimEnd
  rw [trimStart_eq_self (by simpa using h), List.reverse_reverse]

theorem Trimmed.trim_eq (h : Trimmed cs) : trim cs = cs := by
  unfold trim
  rw [trimStart_eq_self h.first, trimEnd_eq_self h.last]

/-- Nothing blank begins what is left. -/
theorem head_trimStart (h : (trimStart cs).head? = some c) : isWhitespace c = false := by
  unfold trimStart at h
  have hne : cs.dropWhile isWhitespace ≠ [] := fun hnil => by rw [hnil] at h; cases h
  have hhead := List.head_dropWhile_not isWhitespace hne
  rw [List.head?_eq_some_head hne, Option.some.injEq] at h
  rw [h] at hhead
  simpa using hhead

theorem last_trimEnd (h : (trimEnd cs).getLast? = some c) : isWhitespace c = false := by
  unfold trimEnd at h
  rw [List.getLast?_reverse] at h
  exact head_trimStart h

theorem trimEnd_prefix (cs : List Char) : trimEnd cs <+: cs := List.rdropWhile_prefix _ _

theorem trimmed_trim (cs : List Char) : Trimmed (trim cs) := by
  refine ⟨fun c hc => ?_, fun c hc => last_trimEnd hc⟩
  -- what begins the rest begins it before its end is trimmed too
  obtain ⟨tail, htail⟩ := trimEnd_prefix (trimStart cs)
  have hc : (trimEnd (trimStart cs)).head? = some c := hc
  have hhead : (trimStart cs).head? = some c := by
    rw [← htail, List.head?_append, hc]
    rfl
  exact head_trimStart hhead

theorem trimmed_of_trim (h : trim cs = cs) : Trimmed cs := h ▸ trimmed_trim cs

theorem trimEnd_append_blank (hc : isWhitespace c = true) : trimEnd (cs ++ [c]) = trimEnd cs :=
  List.rdropWhile_concat_pos _ _ _ hc

theorem trimStart_append (h : ∀ c ∈ cs, isWhitespace c = true) :
    trimStart (cs ++ ds) = trimStart ds :=
  List.dropWhile_append_of_pos h

/-- Trimming at the end stops at what is not blank. -/
theorem trimEnd_append_cons (hc : isWhitespace c = false) :
    trimEnd (cs ++ c :: ds) = cs ++ c :: trimEnd ds := by
  unfold trimEnd
  have hstop : ∀ l : List Char, trimStart (l ++ c :: cs.reverse) = trimStart l ++ c :: cs.reverse := by
    intro l
    induction l with
    | nil => exact List.dropWhile_cons_of_neg (by simp [hc])
    | cons d l ih =>
      by_cases hd : isWhitespace d = true
      · rw [List.cons_append, trimStart, List.dropWhile_cons_of_pos hd, trimStart,
          List.dropWhile_cons_of_pos hd]
        exact ih
      · rw [List.cons_append, trimStart, List.dropWhile_cons_of_neg hd, trimStart,
          List.dropWhile_cons_of_neg hd, List.cons_append]
  rw [List.reverse_append, List.reverse_cons, List.append_assoc, List.singleton_append, hstop,
    List.reverse_append, List.reverse_cons, List.reverse_reverse, List.append_assoc,
    List.singleton_append]

theorem trimEnd_trimEnd (cs : List Char) : trimEnd (trimEnd cs) = trimEnd cs :=
  List.rdropWhile_idempotent _ _

/-- The end may be trimmed first. -/
theorem trim_trimEnd (cs : List Char) : trim (trimEnd cs) = trim cs := by
  have hsplit : cs.takeWhile isWhitespace ++ trimStart cs = cs := List.takeWhile_append_dropWhile
  have hblank : ∀ c ∈ cs.takeWhile isWhitespace, isWhitespace c = true :=
    fun c hc => List.mem_takeWhile_imp hc
  cases hstart : trimStart cs with
  | nil =>
    have hall : ∀ c ∈ cs, isWhitespace c = true := List.dropWhile_eq_nil_iff.mp hstart
    rw [trim, trim, hstart, trimEnd_eq cs, List.rdropWhile_eq_nil_iff.mpr hall]
    rfl
  | cons c rest =>
    have hhead : (trimStart cs).head? = some c := by
      rw [hstart]
      rfl
    have hc : isWhitespace c = false := head_trimStart hhead
    have hself : ∀ l, trimStart (c :: l) = c :: l := fun l =>
      List.dropWhile_cons_of_neg (by simp [hc])
    have hend : trimEnd (c :: rest) = c :: trimEnd rest := @trimEnd_append_cons [] rest c hc
    rw [hstart] at hsplit
    rw [← hsplit, trimEnd_append_cons hc, trim, trim, trimStart_append hblank,
      trimStart_append hblank, hself, hself, ← hend, trimEnd_trimEnd]

/-- What stands between two that are not blank. -/
theorem trimmed_cons_append (hc : isWhitespace c = false) (hq : isWhitespace q = false) :
    Trimmed (c :: cs ++ [q]) := by
  refine ⟨fun d hd => ?_, fun d hd => ?_⟩
  · cases hd
    exact hc
  · rw [List.getLast?_concat] at hd
    cases hd
    exact hq

/-! ## Comments -/

def isQuote (c : Char) : Bool := c == '"' || c == apostrophe

/-- One character of a value, by the quote that is open. -/
def track (quote : Option Char) (c : Char) : Option Char :=
  match quote with
  | some q => if c = q then none else some q
  | none => if isQuote c then some c else none

/-- The quote that is open after these characters. -/
def openQuote (cs : List Char) : Option Char := cs.foldl track none

/-- A `#` after these characters begins a comment. -/
def Begins (cs : List Char) : Prop := openQuote cs = none ∧ beginsComment cs.reverse = true

instance (cs : List Char) : Decidable (Begins cs) := inferInstanceAs (Decidable (_ ∧ _))

/-- After `pre` no comment begins in `cs`. -/
def PlainAfter (pre cs : List Char) : Prop :=
  ∀ kept rest, cs = kept ++ '#' :: rest → ¬ Begins (pre ++ kept)

/-- No comment begins in the text. -/
abbrev CommentFree (cs : List Char) : Prop := PlainAfter [] cs

theorem openQuote_append : openQuote (cs ++ ds) = ds.foldl track (openQuote cs) :=
  List.foldl_append

theorem openQuote_concat : openQuote (cs ++ [c]) = track (openQuote cs) c := by
  rw [openQuote_append]
  rfl

theorem isQuote_iff : isQuote c = true ↔ c = '"' ∨ c = apostrophe := by
  unfold isQuote
  rw [Bool.or_eq_true, beq_iff_eq, beq_iff_eq]

/-- Only a quote is ever open. -/
theorem isQuote_of_openQuote (h : openQuote cs = some q) : isQuote q = true := by
  induction cs using List.reverseRecOn with
  | nil => cases h
  | append_singleton cs c ih =>
    rw [openQuote_concat] at h
    unfold track at h
    cases ho : openQuote cs with
    | none =>
      rw [ho] at h
      dsimp only at h
      split at h
      · rename_i hc
        cases h
        exact hc
      · cases h
    | some p =>
      rw [ho] at h
      dsimp only at h
      split at h
      · cases h
      · cases h
        exact ih ho

theorem PlainAfter.tail (h : PlainAfter ds (c :: cs)) : PlainAfter (ds ++ [c]) cs := by
  intro kept rest heq hb
  refine h (c :: kept) rest (by rw [heq, List.cons_append]) ?_
  rwa [List.append_cons]

/-- The scanner steps over what begins no comment. -/
theorem stripCommentFrom_append {pre : List Char} (h : PlainAfter pre cs) :
    stripCommentFrom (openQuote pre) pre.reverse (cs ++ ds) =
      stripCommentFrom (openQuote (pre ++ cs)) (pre ++ cs).reverse ds := by
  induction cs generalizing pre with
  | nil => rw [List.nil_append, List.append_nil]
  | cons c cs ih =>
    rw [List.append_cons pre c cs, ← ih h.tail, List.cons_append, openQuote_concat,
      List.reverse_append, List.reverse_singleton, List.singleton_append]
    cases ho : openQuote pre with
    | some q => rfl
    | none =>
      have hnot : ¬ (c = '#' ∧ beginsComment pre.reverse = true) := by
        rintro ⟨rfl, hb⟩
        refine h [] cs rfl ⟨?_, ?_⟩
        · rw [List.append_nil, ho]
        · rw [List.append_nil, hb]
      simp only [stripCommentFrom]
      by_cases hq : c = '"' ∨ c = apostrophe
      · rw [if_pos hq]
        simp only [track, if_pos (isQuote_iff.mpr hq)]
      · rw [if_neg hq, if_neg hnot]
        simp only [track, if_neg (fun h => hq (isQuote_iff.mp h))]

/-- A text without comment stays as it is. -/
theorem stripInlineComment_eq_self (h : CommentFree cs) : stripInlineComment cs = cs := by
  have hstep := @stripCommentFrom_append cs [] [] h
  rw [List.append_nil] at hstep
  refine hstep.trans ?_
  rw [List.nil_append]
  exact List.reverse_reverse cs

/-- **The first comment is cut off.** -/
theorem stripInlineComment_of_begins (h : CommentFree cs) (hb : Begins cs) :
    stripInlineComment (cs ++ '#' :: ds) = trimEnd cs := by
  refine (stripCommentFrom_append h).trans ?_
  rw [List.nil_append, hb.1]
  have hq : ¬ ('#' = '"' ∨ '#' = apostrophe) := by decide
  simp only [stripCommentFrom]
  rw [if_neg hq, if_pos ⟨trivial, hb.2⟩, List.reverse_reverse]

/-- A comment begins in a text, or none does. -/
theorem commentFree_or_exists (cs : List Char) : CommentFree cs ∨
    ∃ kept rest, cs = kept ++ '#' :: rest ∧ CommentFree kept ∧ Begins kept := by
  induction cs using List.reverseRecOn with
  | nil => exact .inl fun kept rest h => absurd h (by simp)
  | append_singleton cs c ih =>
    rcases ih with hfree | ⟨kept, rest, rfl, hfree, hb⟩
    · by_cases hc : c = '#' ∧ Begins cs
      · obtain ⟨rfl, hb⟩ := hc
        exact .inr ⟨cs, [], rfl, hfree, hb⟩
      · refine .inl fun kept rest heq hb => ?_
        rcases List.eq_nil_or_concat rest with rfl | ⟨rest', d, rfl⟩
        · obtain ⟨rfl, hcs⟩ := List.append_inj' heq rfl
          exact hc ⟨List.singleton_inj.mp hcs, hb⟩
        · rw [List.concat_eq_append, ← List.cons_append, ← List.append_assoc] at heq
          exact hfree kept rest' (List.append_inj' heq rfl).1 hb
    · exact .inr ⟨kept, rest ++ [c], by simp, hfree, hb⟩

/-- Blanks after a value do not matter. -/
theorem normalizeYamlValue_trimEnd (v : List Char) :
    normalizeYamlValue (trimEnd v) = normalizeYamlValue v := by
  have hstrip : trim (stripInlineComment (trimEnd v)) = trim (stripInlineComment v) := by
    rcases commentFree_or_exists v with hfree | ⟨kept, rest, rfl, hfree, hb⟩
    · have hfree' : CommentFree (trimEnd v) := by
        obtain ⟨tail, htail⟩ := trimEnd_prefix v
        intro kept rest heq
        exact hfree kept (rest ++ tail) (by rw [← htail, heq, List.append_assoc]; rfl)
      rw [stripInlineComment_eq_self hfree, stripInlineComment_eq_self hfree', trim_trimEnd]
    · rw [trimEnd_append_cons (by decide), stripInlineComment_of_begins hfree hb,
        stripInlineComment_of_begins hfree hb]
  unfold normalizeYamlValue
  rw [hstrip]

/-! ## The value read -/

/-- What follows the last `://`, or all of it. -/
def lastPart (v : List Char) : List Char := afterSchemeFrom v v

/-- The value as it is compared, if there is one. -/
def reading (v : List Char) : Option String :=
  if lastPart v = [] then none else some (String.ofList (lastPart v))

theorem reading_eq_iff : reading v = reading cs ↔ lastPart v = lastPart cs := by
  unfold reading
  constructor
  · intro h
    split at h <;> split at h
    · rename_i hv hcs
      rw [hv, hcs]
    · cases h
    · cases h
    · exact String.ofList_injective (Option.some.inj h)
  · intro h
    rw [h]

/-- A prefix ends before what holds none of its characters. -/
theorem isPrefixOf?_append {pre : List Char} (h : ∀ c ∈ pre, c ∉ ds) :
    List.isPrefixOf? pre (cs ++ ds) = (List.isPrefixOf? pre cs).map (· ++ ds) := by
  induction pre generalizing cs with
  | nil => rfl
  | cons a pre ih =>
    have hpre : ∀ c ∈ pre, c ∉ ds := fun c hc => h c (List.mem_cons_of_mem _ hc)
    cases cs with
    | nil =>
      cases ds with
      | nil => rfl
      | cons d ds =>
        have hne : (a == d) = false := beq_false_of_ne fun heq =>
          h a List.mem_cons_self (heq ▸ List.mem_cons_self)
        simp only [List.nil_append, List.isPrefixOf?, hne, Bool.false_eq_true, if_false,
          Option.map_none]
    | cons c cs =>
      simp only [List.cons_append, List.isPrefixOf?]
      by_cases hac : (a == c) = true
      · rw [if_pos hac, if_pos hac, ih hpre]
      · rw [if_neg hac, if_neg hac, Option.map_none]

theorem afterSchemeFrom_eq_self {best : List Char} (h : ':' ∉ ds) :
    afterSchemeFrom best ds = best := by
  induction ds with
  | nil => rfl
  | cons d ds ih =>
    have hne : (':' == d) = false := beq_false_of_ne fun heq => h (heq ▸ List.mem_cons_self)
    have hnone : stripPrefix "://" (d :: ds) = none := by
      show List.isPrefixOf? [':', '/', '/'] (d :: ds) = none
      simp only [List.isPrefixOf?, hne, Bool.false_eq_true, if_false]
    rw [afterSchemeFrom, hnone]
    exact ih fun hmem => h (List.mem_cons_of_mem _ hmem)

/-- What holds no character of a separator is part of the last part. -/
theorem afterSchemeFrom_append {best : List Char} (hcolon : ':' ∉ ds) (hslash : '/' ∉ ds) :
    afterSchemeFrom (best ++ ds) (cs ++ ds) = afterSchemeFrom best cs ++ ds := by
  have hsep : ∀ c ∈ "://".toList, c ∉ ds := by
    simp [hcolon, hslash]
  induction cs generalizing best with
  | nil => exact afterSchemeFrom_eq_self hcolon
  | cons c cs ih =>
    have happ : stripPrefix "://" (c :: cs ++ ds) = (stripPrefix "://" (c :: cs)).map (· ++ ds) :=
      isPrefixOf?_append hsep
    rw [List.cons_append] at happ ⊢
    rw [afterSchemeFrom, afterSchemeFrom, happ]
    cases stripPrefix "://" (c :: cs) with
    | none => exact ih
    | some rest => exact ih

theorem lastPart_append (hcolon : ':' ∉ ds) (hslash : '/' ∉ ds) :
    lastPart (cs ++ ds) = lastPart cs ++ ds :=
  afterSchemeFrom_append hcolon hslash

/-- What is left of a text without comment, blanks and quotes. -/
def bare (text : List Char) : List Char :=
  let value := trim (stripInlineComment text)
  ((unquote "\"" value).orElse fun _ => unquote (String.singleton apostrophe) value).getD value

theorem normalizeYamlValue_eq (ht : trim (bare text) = bare text) :
    normalizeYamlValue text = reading (bare text) := by
  unfold normalizeYamlValue reading lastPart
  dsimp only
  rw [show ((unquote "\"" (trim (stripInlineComment text))).orElse fun _ =>
    unquote (String.singleton apostrophe) (trim (stripInlineComment text))).getD
      (trim (stripInlineComment text)) = bare text from rfl, ht]
  by_cases hnil : bare text = []
  · rw [if_pos hnil, hnil]
    rfl
  · rw [if_neg hnil]

end Scalar

end GhaConsumer

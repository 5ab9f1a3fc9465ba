import GhaConsumer.Text.Percent
import Mathlib.Data.List.TakeWhile

/-!
# URLs

A URL's path and query as a client's parser takes them apart. The path is
split at its slashes, and each dot segment is carried out: `.` stays and
`..` goes up. Segments that are no dot segments stay as they are
(`removeDots_append`), and no other segment is left (`mem_removeDots`).
-/

namespace Text

namespace Url

/-- A piece of a path. -/
abbrev Segment := List Char

/-! ## Dot segments -/

/-- The segment stands for the directory it is in. -/
def isSingleDot (s : Segment) : Bool :=
  [".", "%2e", "%2E"].any fun dot => dot.toList == s

/-- The segment stands for the directory above. -/
def isDoubleDot (s : Segment) : Bool :=
  ["..", ".%2e", ".%2E", "%2e.", "%2E.", "%2e%2e", "%2e%2E", "%2E%2e", "%2E%2E"].any fun dots =>
    dots.toList == s

/-- A segment that stands for itself. -/
def Plain (s : Segment) : Prop := isSingleDot s = false ∧ isDoubleDot s = false

instance : DecidablePred Plain := fun s =>
  inferInstanceAs (Decidable (isSingleDot s = false ∧ isDoubleDot s = false))

/-- Where a segment leads from a directory, the last of its names first. -/
def step (out : List Segment) (s : Segment) : List Segment :=
  if isDoubleDot s then out.tail else if isSingleDot s then out else s :: out

/-- The directory that segments lead to. -/
def walk (segs : List Segment) : List Segment := (segs.foldl step []).reverse

/-- The path without its dot segments: a dot segment at the end leaves an
empty one. -/
def removeDots (segs : List Segment) : List Segment :=
  walk segs ++ (if segs.getLast?.any fun s => isDoubleDot s || isSingleDot s then [[]] else [])

variable {segs : List Segment} {s : Segment}

theorem step_of_plain (h : Plain s) (out : List Segment) : step out s = s :: out := by
  simp only [step, h.1, h.2, Bool.false_eq_true, if_false]

theorem foldl_step_of_plain (h : ∀ s ∈ segs, Plain s) (out : List Segment) :
    segs.foldl step out = segs.reverse ++ out := by
  induction segs generalizing out with
  | nil => rfl
  | cons s segs ih =>
    obtain ⟨hs, hsegs⟩ := List.forall_mem_cons.mp h
    rw [List.foldl_cons, step_of_plain hs, ih hsegs, List.reverse_cons, List.append_assoc]
    rfl

/-- **Plain segments at the end stay.** -/
theorem removeDots_append {base : List Segment} (h : ∀ s ∈ segs, Plain s) (hne : segs ≠ []) :
    removeDots (base ++ segs) = walk base ++ segs := by
  have hlast : (base ++ segs).getLast? = some (segs.getLast hne) := by
    rw [List.getLast?_append_of_ne_nil _ hne, List.getLast?_eq_some_getLast hne]
  obtain ⟨hsingle, hdouble⟩ := h _ (List.getLast_mem hne)
  unfold removeDots walk
  rw [hlast, List.foldl_append, foldl_step_of_plain h]
  simp [hsingle, hdouble]

theorem mem_foldl_step {out : List Segment} (hout : ∀ s ∈ out, Plain s) :
    ∀ s ∈ segs.foldl step out, Plain s := by
  induction segs generalizing out with
  | nil => exact hout
  | cons s segs ih =>
    refine ih fun s' hs' => ?_
    unfold step at hs'
    split at hs'
    · exact hout s' (List.mem_of_mem_tail hs')
    · split at hs'
      · exact hout s' hs'
      · rename_i hdouble hsingle
        rcases List.mem_cons.mp hs' with rfl | hs'
        · exact ⟨eq_false_of_ne_true hsingle, eq_false_of_ne_true hdouble⟩
        · exact hout s' hs'

/-- **No dot segment is left.** -/
theorem mem_removeDots (h : s ∈ removeDots segs) : Plain s := by
  rcases List.mem_append.mp h with h | h
  · exact mem_foldl_step (fun s hs => absurd hs List.not_mem_nil) s (List.mem_reverse.mp h)
  · split at h
    · rw [List.mem_singleton.mp h]
      decide
    · cases h

/-- A segment without `%` is plain unless it is one of the two dots. -/
theorem plain_iff (h : '%' ∉ s) : Plain s ↔ s ≠ ['.'] ∧ s ≠ ['.', '.'] := by
  have hne : ∀ dots : List Char, '%' ∈ dots → (dots == s) = false := by
    intro dots hdots
    rw [beq_eq_false_iff_ne]
    rintro rfl
    exact h hdots
  have hcomm : ∀ dots : List Char, ((dots == s) = false) ↔ s ≠ dots := fun dots => by
    rw [beq_eq_false_iff_ne, ne_comm]
  unfold Plain isSingleDot isDoubleDot
  simp only [List.any_cons, List.any_nil, Bool.or_false]
  rw [hne "%2e".toList (by decide), hne "%2E".toList (by decide), hne ".%2e".toList (by decide),
    hne ".%2E".toList (by decide), hne "%2e.".toList (by decide), hne "%2E.".toList (by decide),
    hne "%2e%2e".toList (by decide), hne "%2e%2E".toList (by decide),
    hne "%2E%2e".toList (by decide), hne "%2E%2E".toList (by decide)]
  simp only [Bool.or_false]
  rw [hcomm, hcomm]
  exact Iff.rfl

/-! ## Taking a URL apart -/

/-- What follows `://`. -/
def afterScheme : List Char → List Char
  | ':' :: '/' :: '/' :: rest => rest
  | _ :: rest => afterScheme rest
  | [] => []

/-- A path separator, to the schemes of the web. -/
def isSeparator (c : Char) : Bool := c == '/' || c == '\\'

/-- The query or the fragment begins. -/
def endsPath (c : Char) : Bool := c == '?' || c == '#'

/-- The path of a URL with an authority. -/
def path (url : String) : List Char :=
  ((afterScheme url.toList).dropWhile fun c => !isSeparator c && !endsPath c).takeWhile fun c =>
    !endsPath c

/-- The segments of the path, as the client asks for them. -/
def segments (url : String) : List Segment :=
  removeDots ((path url).splitOnP isSeparator).tail

/-- The query: between the first `?` and the fragment. -/
def query (url : String) : Option (List Char) :=
  match (url.toList.takeWhile (· ≠ '#')).dropWhile (· ≠ '?') with
  | _ :: q => some q
  | [] => none

/-- The query's parameters, each split at every `=`, and percent-decoded. -/
def parameters (q : List Char) : List (List (Option String)) :=
  (q.splitOn '&').map fun item =>
    (item.splitOn '=').map fun part => Percent.decodeText (String.ofList part)

/-- A URL whose first `?` is known has what follows for its query. -/
theorem query_append {url : String} {pre q : List Char} (h : url.toList = pre ++ '?' :: q)
    (hmark : '?' ∉ pre) (hpre : '#' ∉ pre) (hq : '#' ∉ q) : query url = some q := by
  have hnone : ∀ c ∈ pre ++ '?' :: q, c ≠ '#' := by
    rintro c hc rfl
    rcases List.mem_append.mp hc with hc | hc
    · exact hpre hc
    · rcases List.mem_cons.mp hc with hc | hc
      · cases hc
      · exact hq hc
  have hother : ∀ c ∈ pre, c ≠ '?' := by
    rintro c hc rfl
    exact hmark hc
  unfold query
  rw [h, List.takeWhile_eq_self_iff.mpr fun c hc => decide_eq_true (hnone c hc),
    List.dropWhile_append_of_pos fun c hc => decide_eq_true (hother c hc)]
  rfl

/-- A parameter, written out. -/
def spell (p : String × String) : List Char := p.1.toList ++ '=' :: p.2.toList

theorem not_mem_spell {p : String × String} {c : Char} (hc : c ≠ '=')
    (h : c ∉ p.1.toList ∧ c ∉ p.2.toList) : c ∉ spell p := by
  simp only [spell, List.mem_append, List.mem_cons, not_or]
  exact ⟨h.1, hc, h.2⟩

theorem not_mem_intercalate {α : Type*} {x y : α} {ls : List (List α)} (hne : x ≠ y)
    (h : ∀ l ∈ ls, x ∉ l) : x ∉ List.intercalate [y] ls := by
  induction ls with
  | nil => exact List.not_mem_nil
  | cons l ls ih =>
    obtain ⟨hl, hls⟩ := List.forall_mem_cons.mp h
    by_cases hnil : ls = []
    · rw [hnil, List.intercalate_singleton]
      exact hl
    · rw [List.intercalate_cons_of_ne_nil hnil]
      simp only [List.mem_append, List.mem_singleton, not_or]
      exact ⟨⟨hl, hne⟩, ih hls⟩

/-- **Parameters in which nothing separates are read as they were
written.** -/
theorem parameters_spell {ps : List (String × String)} (hne : ps ≠ [])
    (h : ∀ p ∈ ps, ∀ c ∈ ['&', '='], c ∉ p.1.toList ∧ c ∉ p.2.toList) :
    parameters (List.intercalate ['&'] (ps.map spell)) =
      ps.map fun p => [Percent.decodeText p.1, Percent.decodeText p.2] := by
  have hamp : ∀ item ∈ ps.map spell, '&' ∉ item := by
    intro item hitem hmem
    obtain ⟨p, hp, rfl⟩ := List.mem_map.mp hitem
    exact not_mem_spell (by decide) (h p hp '&' (by simp)) hmem
  unfold parameters
  rw [List.splitOn_intercalate _ hamp (by simpa using hne), List.map_map]
  refine List.map_congr_left fun p hp => ?_
  obtain ⟨hname, hvalue⟩ := h p hp '=' (by simp)
  show (List.splitOn '=' (spell p)).map _ = _
  unfold spell
  rw [List.splitOn_append_cons_self_of_not_mem hname, List.splitOn_eq_singleton hvalue]
  simp

end Url

end Text

import GhaConsumer.Text.Utf8

/-!
# Paths

A path is bytes, and those need not be a text: printed, what is no
character is replaced.
-/

namespace Text

/-- A path, as the system has it. -/
abbrev OsPath := List UInt8

namespace OsPath

/-- The byte `/`. -/
def sep : UInt8 := 47

def ofString (s : String) : OsPath := bytes s

/-- `Path::display`, `Path::to_string_lossy`. -/
def display (p : OsPath) : String := lossy p

/-- `Path::is_absolute`. -/
def isAbsolute (p : OsPath) : Bool := p.head? == some sep

/-- `Path::join`. -/
def join (p : OsPath) (name : String) : OsPath :=
  if isAbsolute (ofString name) then ofString name
  else if p = [] ∨ p.getLast? = some sep then p ++ ofString name
  else p ++ sep :: ofString name

/-- `Path::components`, less the root: a `.` counts only where a relative
path begins with it. -/
def components (p : OsPath) : List (List UInt8) :=
  let segs := p.splitOn sep
  let cur := if segs.head? = some [46] then [[46]] else []
  cur ++ segs.filter fun s => s ≠ [] ∧ s ≠ [46]

/-- `Path::starts_with`. -/
def startsWith (p base : OsPath) : Bool :=
  isAbsolute p == isAbsolute base && (components base).isPrefixOf (components p)

/-- Without the separators at its end. -/
def trimSeps (p : OsPath) : OsPath := (p.reverse.dropWhile (· == sep)).reverse

/-- `Path::parent`, of a path without a `.`: none of the root and of no
components. -/
def parent (p : OsPath) : Option OsPath :=
  if components p = [] then none
  else
    let dir := ((trimSeps p).reverse.dropWhile (· != sep)).reverse
    some (if trimSeps dir = [] then dir.take 1 else trimSeps dir)

/-! ## What is in a directory -/

/-- The path is the directory's own, or of something in it. -/
def under (root p : OsPath) : Bool := root == p || (root ++ [sep]).isPrefixOf p

variable {p q root : OsPath} {name name' : List UInt8}

/-- What is left of a path after the directory's own: nothing, or a
separator and what is inside. -/
def Inside (rest : List UInt8) : Prop := ∀ b ∈ rest.head?, b = sep

theorem under_iff : under root p = true ↔ ∃ rest, Inside rest ∧ p = root ++ rest := by
  unfold under
  rw [Bool.or_eq_true, beq_iff_eq, List.isPrefixOf_iff_prefix]
  constructor
  · rintro (rfl | ⟨rest, rfl⟩)
    · exact ⟨[], fun b hb => by simp at hb, (List.append_nil _).symm⟩
    · refine ⟨sep :: rest, fun b hb => ?_, List.append_assoc _ [sep] _⟩
      exact (Option.some.inj hb).symm
  · rintro ⟨rest, hin, rfl⟩
    cases rest with
    | nil => exact .inl (List.append_nil _).symm
    | cons b rest =>
      obtain rfl := hin b rfl
      exact .inr ⟨rest, List.append_assoc _ [sep] _⟩

theorem under_refl (p : OsPath) : under p p = true :=
  under_iff.mpr ⟨[], fun b hb => by simp at hb, (List.append_nil p).symm⟩

theorem under_sep (p : OsPath) (rest : List UInt8) : under p (p ++ sep :: rest) = true :=
  under_iff.mpr ⟨sep :: rest, fun _ hb => (Option.some.inj hb).symm, rfl⟩

theorem under_trans (h : under p q = true) (h' : under q root = true) : under p root = true := by
  obtain ⟨x, hx, rfl⟩ := under_iff.mp h
  obtain ⟨y, hy, rfl⟩ := under_iff.mp h'
  refine under_iff.mpr ⟨x ++ y, fun b hb => ?_, List.append_assoc _ _ _⟩
  cases x with
  | nil => exact hy b hb
  | cons c x => exact hx b hb

theorem length_le_of_under (h : under root p = true) : root.length ≤ p.length := by
  obtain ⟨rest, -, rfl⟩ := under_iff.mp h
  rw [List.length_append]
  exact Nat.le_add_right _ _

/-- Of two directories a path is in, one is in the other. -/
theorem under_total (h : under p root = true) (h' : under q root = true) :
    under p q = true ∨ under q p = true := by
  obtain ⟨x, hx, rfl⟩ := under_iff.mp h
  obtain ⟨y, hy, heq⟩ := under_iff.mp h'
  rcases List.append_eq_append_iff.mp heq with ⟨c, rfl, rfl⟩ | ⟨c, rfl, rfl⟩
  · refine .inl (under_iff.mpr ⟨c, fun b hb => hx b ?_, rfl⟩)
    cases c with
    | nil => simp at hb
    | cons => exact hb
  · refine .inr (under_iff.mpr ⟨c, fun b hb => hy b ?_, rfl⟩)
    cases c with
    | nil => simp at hb
    | cons => exact hb

/-- A directory's own name is the last step to it. -/
theorem under_name (hname : sep ∉ name) (h : under q (p ++ sep :: name) = true) :
    q = p ++ sep :: name ∨ under q p = true := by
  obtain ⟨rest, hin, heq⟩ := under_iff.mp h
  rcases List.append_eq_append_iff.mp heq with ⟨c, rfl, hc⟩ | ⟨c, rfl, rfl⟩
  · -- the rest of the path after `q` is in the name, where there is no separator
    cases c with
    | nil => exact .inr (by rw [List.append_nil]; exact under_refl p)
    | cons b c =>
      obtain ⟨rfl, rfl⟩ := List.cons.inj hc
      cases rest with
      | nil => exact .inl (congrArg (p ++ sep :: ·) (List.append_nil c).symm)
      | cons d rest =>
        obtain rfl := hin d rfl
        exact absurd (List.mem_append_right c List.mem_cons_self) hname
  · refine .inr (under_iff.mpr ⟨c, fun b hb => hin b ?_, rfl⟩)
    cases c with
    | nil => simp at hb
    | cons => exact hb

/-- Two directories of one parent that have a path in common are one. -/
theorem name_unique {parent : OsPath} (hname : sep ∉ name) (hname' : sep ∉ name')
    (h : under (parent ++ sep :: name) p = true) (h' : under (parent ++ sep :: name') p = true) :
    name = name' := by
  have hlonger : ∀ n : List UInt8, ¬ under (parent ++ sep :: n) parent = true := by
    intro n hn
    have hle := length_le_of_under hn
    simp only [List.length_append, List.length_cons] at hle
    omega
  have hsame : ∀ {n n' : List UInt8}, sep ∉ n' →
      under (parent ++ sep :: n) (parent ++ sep :: n') = true → n = n' := by
    intro n n' hn' hu
    rcases under_name hn' hu with heq | hu
    · exact (List.cons.inj (List.append_cancel_left heq)).2
    · exact absurd hu (hlonger n)
  rcases under_total h h' with hu | hu
  · exact hsame hname' hu
  · exact (hsame hname hu).symm

/-! ## Joining -/

theorem join_eq {s : String} (hrel : isAbsolute (ofString s) = false) (hne : p ≠ [])
    (hlast : p.getLast? ≠ some sep) : p.join s = p ++ sep :: ofString s := by
  unfold join
  rw [if_neg (by rw [hrel]; exact Bool.false_ne_true), if_neg (by simp [hne, hlast])]

/-- A path that ends in a name does not end in a separator. -/
theorem join_ends {s : String} (hne : ofString s ≠ []) (hlast : (ofString s).getLast? ≠ some sep) :
    p.join s ≠ [] ∧ (p.join s).getLast? ≠ some sep := by
  have hends : ∀ xs : List UInt8, xs ++ ofString s ≠ [] ∧ (xs ++ ofString s).getLast? ≠ some sep := by
    intro xs
    rw [List.getLast?_append_of_ne_nil _ hne]
    exact ⟨List.append_ne_nil_of_right_ne_nil _ hne, hlast⟩
  unfold join
  split
  · exact ⟨hne, hlast⟩
  · split
    · exact hends p
    · have hcons : p ++ sep :: ofString s = (p ++ [sep]) ++ ofString s := by
        rw [List.append_assoc, List.cons_append, List.nil_append]
      rw [hcons]
      exact hends _

end OsPath

end Text

import GhaConsumer.Control.Completed
import GhaConsumer.Control.Listing

/-!
# Control — what the completed list shows

The walk takes every name that reads as an id for a job's file, also one
that is not spelled as the id is. Where such a file is shown the list has
a row that no job's file stands for. Whether one can be is a matter of
how many newer files there are, and of the scan budget: all else the list
promises it keeps (`lists_iff`).
-/

namespace GhaConsumer

namespace Completed

open Interleave Alone Ranking
open Files (Bytes)

variable {C : Codec} {lossy : Bytes → String} {w w' : World} {now cutoff : ℕ} {dir : Dir}
variable {outcome name : String} {e f : Found} {done error : List String}

/-! ## What the list promises -/

/-- The file of a job that finished within the window. -/
structure Completes (w : World) (now : ℕ) (p : Path) : Prop where
  archive : p.dir = .done ∨ p.dir = .error
  canonical : ∃ id, p.name = jobFileName id
  recent : ∃ i, w.fs.tree.ino p = some i ∧ cutoffAt now ≤ (w.fs.tree.node i).mtime

/-- When the job of a file finished. -/
def finishedMs (w : World) (p : Path) : ℕ :=
  ((w.fs.tree.ino p).map fun i => msSinceEpoch (w.fs.tree.node i).mtime).getD 0

/-- The file a row is to come from. -/
def jobFile : Found → Option Path
  | ⟨id, outcome, _, _⟩ =>
    if outcome = "done" then some ⟨.done, jobFileName id⟩
    else if outcome = "error" then some ⟨.error, jobFileName id⟩ else none

/-- **What the list promises**, for the files it has kept, whether the
scan budget was spent, its rows, and whether they are marked truncated. -/
structure Lists (C : Codec) (lossy : Bytes → String) (w : World) (now : ℕ) (kept : List Found)
    (scanCapped : Bool) (rows : List CompletedSummary) (truncated : Bool) : Prop where
  /-- A row is that of a file kept. -/
  rows_eq : rows = kept.map fun e => rowOn C lossy e w.fs.tree
  /-- A row with this id and outcome comes from `<outcome>/<id>.job`. -/
  canonical : ∀ e ∈ kept, jobFile e = some e.path
  recent : ∀ e ∈ kept, Completes w now e.path ∧ e.finishedMs = finishedMs w e.path
  sorted : rows.Pairwise fun a b => b.finishedMs ≤ a.finishedMs
  length_le : rows.length ≤ completedCap
  nodup : (kept.map (·.path)).Nodup
  /-- Unless truncated, the rows are all there are. -/
  complete : truncated = false → ∀ p, Completes w now p → p ∈ kept.map (·.path)
  /-- Unless the budget was spent, what is left out is no newer. -/
  newest : scanCapped = false → ∀ p, Completes w now p → p ∉ kept.map (·.path) →
    ∀ row ∈ rows, finishedMs w p ≤ row.finishedMs

/-- Every listing of these files keeps the promises. -/
def AlwaysLists (C : Codec) (lossy : Bytes → String) (w : World) (now : ℕ) : Prop :=
  ∀ kept rowCapped scanCapped w₁ rows truncated w₂,
    Ends (hostStep C Faultless) (walkCompleted now) w (kept, rowCapped, scanCapped) w₁ →
    Ends (hostStep C Faultless) (showCompleted C lossy (kept, rowCapped, scanCapped)) w₁
      (rows, truncated) w₂ → Lists C lossy w now kept scanCapped rows truncated

/-! ## The condition -/

/-- How many names of a directory are of files that finished at a time
with this property, less those the walk may leave out. -/
def surely (w : World) (now : ℕ) (dir : Dir) (outcome : String) (left : ℕ) (P : ℕ → Bool) : ℕ :=
  (w.names dir).countP (fun n =>
    (foundOn w.fs.tree (cutoffAt now) dir outcome n).any fun g => P g.finishedMs) -
      ((w.names dir).length - left)

/-- What `done/` leaves of the scan budget. -/
def errorBudget (w : World) : ℕ := completedScanCap - (w.names .done).length

/-- However the directories are read, as many files as the list may show
come before this one of `done/`. -/
def OutrankedInDone (w : World) (now : ℕ) (f : Found) : Prop :=
  completedCap ≤ surely w now .done "done" completedScanCap (f.finishedMs < ·) +
    surely w now .error "error" (errorBudget w) (f.finishedMs < ·)

/-- The same of `error/`; what finished at the same time in `done/` comes
first, and `error/` may be out of reach. -/
def OutrankedInError (w : World) (now : ℕ) (f : Found) : Prop :=
  errorBudget w = 0 ∨
    completedCap ≤ surely w now .done "done" completedScanCap (f.finishedMs ≤ ·) +
      surely w now .error "error" (errorBudget w) (f.finishedMs < ·)

/-- No file whose name reads as an id without being the id's own is within
reach of the list. -/
structure NoneStrays (w : World) (now : ℕ) : Prop where
  done : ∀ name f, foundOn w.fs.tree (cutoffAt now) .done "done" name = some f →
    name ≠ jobFileName f.id → OutrankedInDone w now f
  error : ∀ name f, foundOn w.fs.tree (cutoffAt now) .error "error" name = some f →
    name ≠ jobFileName f.id → OutrankedInError w now f

/-! ## What is found -/

theorem foundOn_eq_some {t : Files.Tree Path} : foundOn t cutoff dir outcome name = some f ↔
    parseSpoolFilename name = some f.id ∧ f.outcome = outcome ∧ f.path = ⟨dir, name⟩ ∧
      ∃ i, t.ino ⟨dir, name⟩ = some i ∧ cutoff ≤ (t.node i).mtime ∧
        f.finishedMs = msSinceEpoch (t.node i).mtime := by
  unfold foundOn
  cases parseSpoolFilename name with
  | none => simp
  | some id =>
    cases hi : t.ino ⟨dir, name⟩ with
    | none => simp
    | some i =>
      by_cases hold : (t.node i).mtime < cutoff
      · simp only [if_pos hold, reduceCtorEq, false_iff]
        rintro ⟨-, -, -, j, hj, hle, -⟩
        cases hj
        omega
      · simp only [if_neg hold, Option.some.injEq]
        constructor
        · rintro rfl
          exact ⟨rfl, rfl, rfl, i, rfl, Nat.le_of_not_lt hold, rfl⟩
        · rintro ⟨hid, hout, hpath, j, rfl, -, hms⟩
          obtain ⟨id', out', ms', p'⟩ := f
          simp only at hid hout hpath hms
          rw [hid, hout, hpath, hms]

theorem mem_foundBoth {t : Files.Tree Path} : f ∈ foundBoth t now done error ↔
    (∃ name ∈ done, foundOn t (cutoffAt now) .done "done" name = some f) ∨
      ∃ name ∈ error, foundOn t (cutoffAt now) .error "error" name = some f := by
  unfold foundBoth
  rw [List.mem_append, List.mem_filterMap, List.mem_filterMap]

/-- What is found has a path of its own. -/
theorem nodup_paths {t : Files.Tree Path} (hdone : done.Nodup) (herror : error.Nodup) :
    ((foundBoth t now done error).map (·.path)).Nodup := by
  have hone : ∀ (d : Dir) (o : String) (names : List String), names.Nodup →
      ((names.filterMap (foundOn t (cutoffAt now) d o)).map (·.path)).Nodup := by
    intro d o names hnames
    rw [List.map_filterMap]
    refine hnames.filterMap fun a b p ha hb => ?_
    obtain ⟨f, hf, rfl⟩ := Option.map_eq_some_iff.mp ha
    obtain ⟨g, hg, hfg⟩ := Option.map_eq_some_iff.mp hb
    have hpa := (foundOn_eq_some.mp hf).2.2.1
    have hpb := (foundOn_eq_some.mp hg).2.2.1
    rw [hpa, hpb] at hfg
    exact (Files.Path.mk.inj hfg).2.symm
  unfold foundBoth
  rw [List.map_append]
  refine List.nodup_append.mpr ⟨hone _ _ _ hdone, hone _ _ _ herror, fun p hp q hq => ?_⟩
  obtain ⟨f, hf, rfl⟩ := List.mem_map.mp hp
  obtain ⟨g, hg, rfl⟩ := List.mem_map.mp hq
  obtain ⟨n, -, hf⟩ := List.mem_filterMap.mp hf
  obtain ⟨m, -, hg⟩ := List.mem_filterMap.mp hg
  rw [(foundOn_eq_some.mp hf).2.2.1, (foundOn_eq_some.mp hg).2.2.1]
  exact fun h => by cases h

theorem Given.nodup {names given : List String} {left : ℕ} (h : Given names left given)
    (hnames : names.Nodup) : given.Nodup := by
  obtain ⟨rest, hperm⟩ := h.sub
  exact (hperm.nodup_iff.mpr hnames).of_append_left

theorem GivenBoth.nodup (h : GivenBoth w done error) (now : ℕ) :
    ((foundBoth w.fs.tree now done error).map (·.path)).Nodup :=
  nodup_paths (h.inDone.nodup (w.nodup_names _)) (h.inError.nodup (w.nodup_names _))

/-! ## Files that stray -/

/-- The file of this name finished at a time with this property. -/
def ofTime (w : World) (now : ℕ) (dir : Dir) (outcome : String) (P : ℕ → Bool) (name : String) :
    Bool :=
  (foundOn w.fs.tree (cutoffAt now) dir outcome name).any fun g => P g.finishedMs

theorem countP_found (w : World) (now : ℕ) (dir : Dir) (outcome : String) (names : List String)
    (P : ℕ → Bool) :
    (names.filterMap (foundOn w.fs.tree (cutoffAt now) dir outcome)).countP
      (fun g => P g.finishedMs) = names.countP (ofTime w now dir outcome P) := by
  rw [List.countP_filterMap]
  congr 1
  funext n
  unfold ofTime
  cases foundOn w.fs.tree (cutoffAt now) dir outcome n <;> rfl

/-- At least so many of the names given are of such files. -/
theorem surely_le {given : List String} {left : ℕ} (now : ℕ) (outcome : String) (P : ℕ → Bool)
    (h : Given (w.names dir) left given) : surely w now dir outcome left P ≤
      (given.filterMap (foundOn w.fs.tree (cutoffAt now) dir outcome)).countP
        fun g => P g.finishedMs := by
  obtain ⟨rest, hperm⟩ := h.sub
  have hcount := countP_given (P := ofTime w now dir outcome P) hperm
  have hlen := h.length
  have hleft : (w.names dir).length - given.length = (w.names dir).length - left := by omega
  rw [hleft] at hcount
  rw [countP_found]
  exact hcount

theorem errorBudget_eq (h : GivenBoth w done error) :
    completedScanCap - done.length = errorBudget w := by
  have hlen := h.inDone.length
  unfold errorBudget
  omega

/-- Behind so many that come before it a file is not kept. -/
theorem not_kept_of_done (h : GivenBoth w done error)
    (hmem : f ∈ done.filterMap (foundOn w.fs.tree (cutoffAt now) .done "done"))
    (hout : OutrankedInDone w now f) :
    f ∉ (sortNewest (foundBoth w.fs.tree now done error)).take completedCap := by
  have hdone := surely_le now "done" (f.finishedMs < ·) h.inDone
  have herror := surely_le now "error" (f.finishedMs < ·) h.inError
  rw [errorBudget_eq h] at herror
  obtain ⟨l₁, l₂, hsplit⟩ := List.append_of_mem hmem
  have hboth : foundBoth w.fs.tree now done error = l₁ ++ f ::
      (l₂ ++ error.filterMap (foundOn w.fs.tree (cutoffAt now) .error "error")) := by
    rw [foundBoth, hsplit, List.append_assoc, List.cons_append]
  have hnodup := (h.nodup now).of_map
  rw [hboth] at hnodup
  rw [hsplit, List.countP_append, List.countP_cons_of_neg (by simp)] at hdone
  have hmore : l₁.countP (fun g => f.finishedMs < g.finishedMs) ≤
      l₁.countP fun g => f.finishedMs ≤ g.finishedMs :=
    List.countP_mono_left fun g _ => by simp only [decide_eq_true_eq]; omega
  rw [sortNewest, hboth, mem_take_newest hnodup, List.countP_append]
  unfold OutrankedInDone at hout
  omega

theorem not_kept_of_error (h : GivenBoth w done error)
    (hmem : f ∈ error.filterMap (foundOn w.fs.tree (cutoffAt now) .error "error"))
    (hout : OutrankedInError w now f) :
    f ∉ (sortNewest (foundBoth w.fs.tree now done error)).take completedCap := by
  have hdone := surely_le now "done" (f.finishedMs ≤ ·) h.inDone
  have herror := surely_le now "error" (f.finishedMs < ·) h.inError
  rw [errorBudget_eq h] at herror
  obtain ⟨l₁, l₂, hsplit⟩ := List.append_of_mem hmem
  have hboth : foundBoth w.fs.tree now done error =
      (done.filterMap (foundOn w.fs.tree (cutoffAt now) .done "done") ++ l₁) ++ f :: l₂ := by
    rw [foundBoth, hsplit, List.append_assoc]
  have hnodup := (h.nodup now).of_map
  rw [hboth] at hnodup
  rw [hsplit, List.countP_append, List.countP_cons_of_neg (by simp)] at herror
  have hmore : l₁.countP (fun g => f.finishedMs < g.finishedMs) ≤
      l₁.countP fun g => f.finishedMs ≤ g.finishedMs :=
    List.countP_mono_left fun g _ => by simp only [decide_eq_true_eq]; omega
  rw [sortNewest, hboth, mem_take_newest hnodup, List.countP_append]
  rcases hout with hnone | hout
  · -- out of reach: nothing of `error/` is given
    have hlen := h.inError.length
    rw [errorBudget_eq h, hnone, Nat.min_zero] at hlen
    rw [List.eq_nil_of_length_eq_zero hlen] at hmem
    cases hmem
  · omega

/-- And behind fewer it may be. -/
theorem exists_kept_of_done
    (hf : foundOn w.fs.tree (cutoffAt now) .done "done" name = some f)
    (hout : ¬ OutrankedInDone w now f) :
    ∃ done error, GivenBoth w done error ∧
      f ∈ (sortNewest (foundBoth w.fs.tree now done error)).take completedCap := by
  obtain ⟨-, -, -, i, hi, -⟩ := foundOn_eq_some.mp hf
  have hname : name ∈ w.names .done := World.mem_names.mpr ⟨i, hi⟩
  have hfirst : ofTime w now .done "done" (f.finishedMs < ·) name = false := by
    unfold ofTime
    simp [hf]
  obtain ⟨given, rest, hperm, hlen, hcount⟩ := exists_given_first hname hfirst
    (show 0 < completedScanCap by decide)
  obtain ⟨error, rest', hperm', hlen', hcount'⟩ := exists_given (w.names .error)
    (ofTime w now .error "error" (f.finishedMs < ·)) (completedScanCap - (name :: given).length)
  have h : GivenBoth w (name :: given) error := ⟨⟨⟨rest, hperm⟩, hlen⟩, ⟨⟨rest', hperm'⟩, hlen'⟩⟩
  refine ⟨name :: given, error, h, ?_⟩
  have hboth : foundBoth w.fs.tree now (name :: given) error = [] ++ f ::
      (given.filterMap (foundOn w.fs.tree (cutoffAt now) .done "done") ++
        error.filterMap (foundOn w.fs.tree (cutoffAt now) .error "error")) := by
    rw [foundBoth, List.filterMap_cons_some hf]
    rfl
  have hnodup := (h.nodup now).of_map
  rw [hboth] at hnodup
  have hdone := countP_found w now .done "done" given (f.finishedMs < ·)
  have herror := countP_found w now .error "error" error (f.finishedMs < ·)
  rw [errorBudget_eq h] at hcount'
  rw [hcount] at hdone
  rw [hcount'] at herror
  rw [sortNewest, hboth, mem_take_newest hnodup, List.countP_nil, List.countP_append, hdone, herror]
  have hlt := Nat.lt_of_not_le hout
  unfold surely at hlt
  unfold ofTime
  omega

theorem exists_kept_of_error
    (hf : foundOn w.fs.tree (cutoffAt now) .error "error" name = some f)
    (hout : ¬ OutrankedInError w now f) :
    ∃ done error, GivenBoth w done error ∧
      f ∈ (sortNewest (foundBoth w.fs.tree now done error)).take completedCap := by
  obtain ⟨hbudget, hfew⟩ := not_or.mp hout
  obtain ⟨-, -, -, i, hi, -⟩ := foundOn_eq_some.mp hf
  have hname : name ∈ w.names .error := World.mem_names.mpr ⟨i, hi⟩
  have hfirst : ofTime w now .error "error" (f.finishedMs < ·) name = false := by
    unfold ofTime
    simp [hf]
  obtain ⟨done, rest, hperm, hlen, hcount⟩ := exists_given (w.names .done)
    (ofTime w now .done "done" (f.finishedMs ≤ ·)) completedScanCap
  have hleft : completedScanCap - done.length = errorBudget w := by
    unfold errorBudget
    omega
  obtain ⟨given, rest', hperm', hlen', hcount'⟩ := exists_given_first hname hfirst
    (Nat.pos_of_ne_zero hbudget)
  have h : GivenBoth w done (name :: given) :=
    ⟨⟨⟨rest, hperm⟩, hlen⟩, ⟨⟨rest', hperm'⟩, by rw [hleft]; exact hlen'⟩⟩
  refine ⟨done, name :: given, h, ?_⟩
  have hboth : foundBoth w.fs.tree now done (name :: given) =
      done.filterMap (foundOn w.fs.tree (cutoffAt now) .done "done") ++ f ::
        given.filterMap (foundOn w.fs.tree (cutoffAt now) .error "error") := by
    rw [foundBoth, List.filterMap_cons_some hf]
  have hnodup := (h.nodup now).of_map
  rw [hboth] at hnodup
  have hdone := countP_found w now .done "done" done (f.finishedMs ≤ ·)
  have herror := countP_found w now .error "error" given (f.finishedMs < ·)
  rw [hcount] at hdone
  rw [hcount'] at herror
  rw [sortNewest, hboth, mem_take_newest hnodup, hdone, herror]
  have hlt := Nat.lt_of_not_le hfew
  unfold surely at hlt
  unfold ofTime
  omega

/-! ## The list -/

theorem mem_kept {k : ℕ} {l : List Found} (h : f ∈ (sortNewest l).take k) : f ∈ l :=
  (newest_perm _ _).mem_iff.mp (List.mem_of_mem_take h)

/-- What is found in an archive under its canonical name is the job's file
there. -/
theorem completes_of_found
    (hdir : dir = .done ∧ outcome = "done" ∨ dir = .error ∧ outcome = "error")
    (hf : foundOn w.fs.tree (cutoffAt now) dir outcome name = some e)
    (hcanon : name = jobFileName e.id) :
    jobFile e = some e.path ∧ Completes w now e.path ∧ e.finishedMs = finishedMs w e.path := by
  obtain ⟨hid, hout, hpath, i, hi, hrecent, hms⟩ := foundOn_eq_some.mp hf
  have hjob : jobFile e = some e.path := by
    rw [hpath, hcanon]
    rcases hdir with ⟨rfl, rfl⟩ | ⟨rfl, rfl⟩ <;> simp [jobFile, hout]
  have hin : dir = .done ∨ dir = .error := hdir.imp And.left And.left
  have htime : e.finishedMs = finishedMs w e.path := by
    unfold finishedMs
    rw [hpath, hi, hms]
    rfl
  refine ⟨hjob, ⟨?_, ⟨e.id, ?_⟩, ⟨i, ?_, hrecent⟩⟩, htime⟩
  · rw [hpath]
    exact hin
  · rw [hpath]
    exact hcanon
  · rw [hpath]
    exact hi

/-- Without files that stray, every file kept is named as its id is. -/
theorem canonical_of_noneStrays (hno : NoneStrays w now) (h : GivenBoth w done error)
    (he : e ∈ (sortNewest (foundBoth w.fs.tree now done error)).take completedCap) :
    jobFile e = some e.path ∧ Completes w now e.path ∧ e.finishedMs = finishedMs w e.path := by
  rcases List.mem_append.mp (mem_kept he) with hmem | hmem
  · obtain ⟨n, -, hf⟩ := List.mem_filterMap.mp hmem
    refine completes_of_found (.inl ⟨rfl, rfl⟩) hf ?_
    by_contra hstray
    exact not_kept_of_done h hmem (hno.done n e hf hstray) he
  · obtain ⟨n, -, hf⟩ := List.mem_filterMap.mp hmem
    refine completes_of_found (.inr ⟨rfl, rfl⟩) hf ?_
    by_contra hstray
    exact not_kept_of_error h hmem (hno.error n e hf hstray) he

/-- A job's file is found where its name is given. -/
theorem found_of_completes {p : Path} (hp : Completes w now p)
    (hgiven : (p.dir = .done → p.name ∈ done) ∧ (p.dir = .error → p.name ∈ error)) :
    ∃ f ∈ foundBoth w.fs.tree now done error, f.path = p ∧ f.finishedMs = finishedMs w p := by
  obtain ⟨id, hid⟩ := hp.canonical
  obtain ⟨i, hi, hrecent⟩ := hp.recent
  obtain ⟨d, n⟩ := p
  have hparse : parseSpoolFilename n = some id := by
    have hid : n = jobFileName id := hid
    rw [hid]
    exact parseSpoolFilename_jobFileName id
  have hms : finishedMs w ⟨d, n⟩ = msSinceEpoch (w.fs.tree.node i).mtime := by
    unfold finishedMs
    rw [hi]
    rfl
  rcases hp.archive with hd | hd
  · obtain rfl : d = .done := hd
    refine ⟨⟨id, "done", msSinceEpoch (w.fs.tree.node i).mtime, ⟨.done, n⟩⟩,
      mem_foundBoth.mpr (.inl ⟨n, hgiven.1 rfl, ?_⟩), rfl, hms.symm⟩
    exact foundOn_eq_some.mpr ⟨hparse, rfl, rfl, i, hi, hrecent, rfl⟩
  · obtain rfl : d = .error := hd
    refine ⟨⟨id, "error", msSinceEpoch (w.fs.tree.node i).mtime, ⟨.error, n⟩⟩,
      mem_foundBoth.mpr (.inr ⟨n, hgiven.2 rfl, ?_⟩), rfl, hms.symm⟩
    exact foundOn_eq_some.mpr ⟨hparse, rfl, rfl, i, hi, hrecent, rfl⟩

/-- With budget left, every name is given. -/
theorem given_all (h : GivenBoth w done error) (hcap : scanCapped w = false) :
    (∀ n, n ∈ w.names .done → n ∈ done) ∧ ∀ n, n ∈ w.names .error → n ∈ error := by
  have hfew : (w.names .done).length + (w.names .error).length < completedScanCap := by
    simpa [scanCapped] using hcap
  have hall : ∀ {names given : List String} {left : ℕ}, Given names left given →
      names.length ≤ left → ∀ n, n ∈ names → n ∈ given := by
    intro names given left hg hle n hn
    obtain ⟨rest, hperm⟩ := hg.sub
    have hlen := hperm.length_eq
    have hglen := hg.length
    rw [List.length_append] at hlen
    have hrest : rest = [] := List.eq_nil_of_length_eq_zero (by omega)
    rw [hrest, List.append_nil] at hperm
    exact hperm.mem_iff.mpr hn
  have hdone := h.inDone.length
  exact ⟨hall h.inDone (by omega), hall h.inError (by omega)⟩

/-- **What the list promises, it keeps**, where no file strays. -/
theorem lists_of_noneStrays (hno : NoneStrays w now) : AlwaysLists C lossy w now := by
  intro kept rowCapped capped w₁ rows truncated w₂ hwalk hshow
  obtain ⟨done, error, hgiven, rfl, rfl, rfl, htree⟩ := walk_ends hwalk
  obtain ⟨rows', s, hrows, heq, rfl⟩ := ends_bind.mp hshow
  cases heq
  obtain ⟨rfl, n, rfl⟩ := (looks_completedRows lossy _).ends hrows
  have hcanon := fun e he => canonical_of_noneStrays (e := e) hno hgiven he
  have hsorted : ((sortNewest (foundBoth w.fs.tree now done error)).take completedCap).Pairwise
      fun a b => b.finishedMs ≤ a.finishedMs :=
    (newest_pairwise _ _).sublist (List.take_sublist _ _)
  have hfound : scanCapped w = false → ∀ p, Completes w now p →
      ∃ f ∈ foundBoth w.fs.tree now done error, f.path = p ∧ f.finishedMs = finishedMs w p := by
    intro hcap p hp
    obtain ⟨hdone, herror⟩ := given_all hgiven hcap
    obtain ⟨i, hi, -⟩ := hp.recent
    have hname : p.name ∈ w.names p.dir := World.mem_names.mpr ⟨i, hi⟩
    exact found_of_completes hp ⟨fun hd => hdone _ (hd ▸ hname), fun hd => herror _ (hd ▸ hname)⟩
  refine ⟨by rw [htree], fun e he => (hcanon e he).1, fun e he => (hcanon e he).2,
    List.pairwise_map.mpr hsorted, ?_, ?_, fun htrunc p hp => ?_, fun hcap p hp hout row hrow => ?_⟩
  · rw [List.length_map, List.length_take]
    exact Nat.min_le_left _ _
  · have hsub : ((sortNewest (foundBoth w.fs.tree now done error)).take completedCap).Sublist
        (sortNewest (foundBoth w.fs.tree now done error)) := List.take_sublist _ _
    exact (((newest_perm _ _).map _).nodup_iff.mpr (hgiven.nodup now)).sublist (hsub.map _)
  · obtain ⟨hfew, hcap⟩ := Bool.or_eq_false_iff.mp htrunc
    obtain ⟨f, hf, rfl, -⟩ := hfound hcap p hp
    have hle := of_decide_eq_false hfew
    have hlen : (sortNewest (foundBoth w.fs.tree now done error)).length ≤ completedCap := by
      rw [sortNewest, (newest_perm _ _).length_eq]
      omega
    rw [List.take_of_length_le hlen]
    exact List.mem_map_of_mem ((newest_perm _ _).mem_iff.mpr hf)
  · obtain ⟨f, hf, rfl, hms⟩ := hfound hcap p hp
    obtain ⟨e, he, rfl⟩ := List.mem_map.mp hrow
    have hnot : f ∉ (sortNewest (foundBoth w.fs.tree now done error)).take completedCap :=
      fun hin => hout (List.mem_map_of_mem hin)
    rw [← hms]
    exact key_le_of_not_mem_take hf hnot he

/-- **Exactly where no file strays** within reach does every listing keep
its promises. -/
theorem lists_iff (C : Codec) (lossy : Bytes → String) (w : World) (now : ℕ) :
    AlwaysLists C lossy w now ↔ NoneStrays w now := by
  refine ⟨fun h => ?_, lists_of_noneStrays⟩
  -- a file that may be kept is the one a row comes from
  have hkept : ∀ done error f, GivenBoth w done error →
      f ∈ (sortNewest (foundBoth w.fs.tree now done error)).take completedCap →
      jobFile f = some f.path := by
    intro done error f hgiven hf
    obtain ⟨w₁, hwalk⟩ := exists_walk (C := C) hgiven now
    obtain ⟨w₂, hshow⟩ := exists_show C lossy _ _ _ w₁
    exact (h _ _ _ w₁ _ _ w₂ hwalk hshow).canonical f hf
  constructor
  · intro name f hf hstray
    by_contra hout
    obtain ⟨done, error, hgiven, hin⟩ := exists_kept_of_done hf hout
    obtain ⟨-, ho, hpath, -⟩ := foundOn_eq_some.mp hf
    have hfile := hkept done error f hgiven hin
    simp only [jobFile, ho, if_true, hpath, Option.some.injEq, Files.Path.mk.injEq] at hfile
    exact hstray hfile.2.symm
  · intro name f hf hstray
    by_contra hout
    obtain ⟨done, error, hgiven, hin⟩ := exists_kept_of_error hf hout
    obtain ⟨-, ho, hpath, -⟩ := foundOn_eq_some.mp hf
    have hfile := hkept done error f hgiven hin
    simp [jobFile, ho, hpath] at hfile
    exact hstray hfile.symm

/-- One file in `done/`, whose name reads as 7. -/
def strayWorld : World := .sample [(⟨.done, "007.job"⟩, ⟨.regular, [10], 0⟩)] 9000000000

/-- **A row without a file**: it shows job 7 as done, and there is no
`done/7.job`. -/
theorem stray_listed :
    (∃ rows truncated w', Ends (hostStep sampleCodec Faultless)
      (listCompleted sampleCodec (fun _ => "") 9000000000) strayWorld (rows, truncated) w' ∧
        rows.map (fun r => (r.id, r.outcome)) = [("7", "done")]) ∧
    strayWorld.fs.tree.ino ⟨.done, jobFileName 7⟩ = none ∧
    ¬ AlwaysLists sampleCodec (fun _ => "") strayWorld 9000000000 := by
  have hwalk : (run sampleExec (walkCompleted 9000000000) strayWorld).map (·.1.1) =
      some [⟨7, "done", 0, ⟨.done, "007.job"⟩⟩] := by decide +kernel
  obtain ⟨⟨⟨kept, rowCapped, capped⟩, w₁⟩, hrun, rfl⟩ := Option.map_eq_some_iff.mp hwalk
  have hends := ends_of_run hostStep_of_exec hrun
  obtain ⟨w₂, hshow⟩ := exists_show sampleCodec (fun _ => "")
    [⟨7, "done", 0, ⟨.done, "007.job"⟩⟩] rowCapped capped w₁
  refine ⟨⟨_, _, w₂, ends_bind.mpr ⟨_, _, hends, hshow⟩, rfl⟩, by decide +kernel, fun h => ?_⟩
  have hfile := (h _ _ _ w₁ _ _ w₂ hends hshow).canonical _ List.mem_cons_self
  revert hfile
  decide +kernel

end Completed

end GhaConsumer

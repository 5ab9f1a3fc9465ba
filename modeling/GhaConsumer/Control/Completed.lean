import GhaConsumer.Control.Model
import GhaConsumer.Gc.Image
import GhaConsumer.Host.Scan
import GhaConsumer.Ranking.Newest
import GhaConsumer.Spool.Read

/-!
# Control — the completed jobs

`list_completed` walks `done/` and `error/` within one scan budget, keeps
what was finished in the last day, sorts it, newest first, and reads the
files of the rows it shows. What the walk finds is a matter of the names
it is given, in the order it is given them (`walk_ends`), and any order
may be the one (`exists_walk`).
-/

namespace GhaConsumer

open Interleave Alone
open Files (Bytes)

/-! ## The model -/

/-- `CompletedSummary`. -/
structure CompletedSummary where
  id : String
  repo : Option String
  name : Option String
  outcome : String
  finishedMs : ℕ
  reason : Option String
  deriving DecidableEq, Repr

/-- What the walk finds: `(id, outcome, finished_ms, path)`. -/
structure Found where
  id : JobId
  outcome : String
  finishedMs : ℕ
  path : Path
  deriving DecidableEq, Repr

/-- `COMPLETED_WINDOW_SECS`, in nanoseconds. -/
def completedWindow : ℕ := 24 * 60 * 60 * 1000000000

/-- `COMPLETED_CAP`. -/
def completedCap : ℕ := 200

/-- `COMPLETED_SCAN_CAP`. -/
def completedScanCap : ℕ := 10000

/-- `MAX_ERR_PREVIEW_BYTES`. -/
def maxErrPreviewBytes : ℕ := 8 * 1024

/-- The loop of `collect_window` at one entry. -/
def windowEntry (dir : Dir) (outcome : String) (cutoff : ℕ) (name : String) :
    Prog Resp (Option Found) :=
  match parseSpoolFilename name with
  | none => pure none
  | some id => do
    match ← fs (.lstat ⟨dir, name⟩) with
    | .error _ => pure none
    | .ok md =>
      if md.mtime < cutoff then pure none
      else pure (some ⟨id, outcome, msSinceEpoch md.mtime, ⟨dir, name⟩⟩)

/-- The loop of `collect_window`, with what is left of the scan budget:
what was found, what is left, and whether the budget was spent. -/
def collectEntries (dir : Dir) (outcome : String) (cutoff : ℕ) :
    ℕ → List Found → Prog Resp (List Found × ℕ × Bool)
  | 0, found => pure (found, 0, true)
  | left + 1, found => do
    match ← fs .nextEntry with
    | .ok (some ent) => do
      let e ← windowEntry dir outcome cutoff ent.name
      collectEntries dir outcome cutoff left (found ++ e.toList)
    | _ => pure (found, left + 1, false)

/-- `collect_window`. -/
def collectWindow (dir : Dir) (outcome : String) (cutoff left : ℕ) (found : List Found) :
    Prog Resp (List Found × ℕ × Bool) := do
  match ← fs (.openDir dir) with
  | .error _ => pure (found, left, false)
  | .ok () => collectEntries dir outcome cutoff left found

/-- `sort_by_key(|e| Reverse(e.2))`, which is stable. -/
def sortNewest (found : List Found) : List Found := Ranking.newest Found.finishedMs found

/-- The first instant of the window. No file is older than the epoch. -/
def cutoffAt (now : ℕ) : ℕ := now - completedWindow

/-- The walk of `list_completed`: what is to be shown, `row_capped` and
`scan_capped`. -/
def walkCompleted (now : ℕ) : Prog Resp (List Found × Bool × Bool) := do
  let (found, left, capped) ← collectWindow .done "done" (cutoffAt now) completedScanCap []
  let (found, _, capped') ← collectWindow .error "error" (cutoffAt now) left found
  pure ((sortNewest found).take completedCap, decide (found.length > completedCap),
    capped || capped')

/-- `err_first_line`; `lossy` is `String::from_utf8_lossy`. -/
def errFirstLine (lossy : Bytes → String) (p : Path) : Prog Resp (Option String) := do
  match ← fs (.openRead ⟨p.dir, p.name ++ ".err"⟩) with
  | .error _ => pure none
  | .ok file =>
    match ← fs (.fstat file) with
    | .error _ => pure none
    | .ok md =>
      if md.kind ≠ .regular then pure none
      else
        match ← fs (.read file maxErrPreviewBytes) with
        | .error _ => pure none
        | .ok bytes =>
          let line := trim ((lines (lossy bytes).toList).head?.getD [])
          pure (if line = [] then none else some (sanitizeForLog (String.ofList line)))

/-- The row of a file found. -/
def completedRow (C : Codec) (lossy : Bytes → String) (e : Found) : Prog Resp CompletedSummary := do
  let shown ← readSpoolFileAt C e.path
  let reason ← (if e.outcome = "error" then errFirstLine lossy e.path else pure none)
  pure {
    id := toString e.id
    repo := shown.toOption.map fun x => sanitizeForLog x.1.repo
    name := shown.toOption.bind fun x => (parseDisplayFields C x.2).1
    outcome := e.outcome
    finishedMs := e.finishedMs
    reason := reason }

def completedRows (C : Codec) (lossy : Bytes → String) :
    List Found → Prog Resp (List CompletedSummary)
  | [] => pure []
  | e :: es => do
    let row ← completedRow C lossy e
    let rows ← completedRows C lossy es
    pure (row :: rows)

/-- The rest of `list_completed`: the rows, and `truncated`. -/
def showCompleted (C : Codec) (lossy : Bytes → String) :
    List Found × Bool × Bool → Prog Resp (List CompletedSummary × Bool)
  | (kept, rowCapped, scanCapped) => do
    let rows ← completedRows C lossy kept
    pure (rows, rowCapped || scanCapped)

/-- `list_completed`. -/
def listCompleted (C : Codec) (lossy : Bytes → String) (now : ℕ) :
    Prog Resp (List CompletedSummary × Bool) :=
  walkCompleted now >>= showCompleted C lossy

/-! ## The walk, by the names it is given -/

namespace Completed

variable {C : Codec} {w w' s s' : World} {dir : Dir} {outcome : String} {cutoff now left : ℕ}
variable {found out : List Found} {capped : Bool} {seen : List String} {name : String}

/-- What is found of a name. -/
def foundOn (t : Files.Tree Path) (cutoff : ℕ) (dir : Dir) (outcome name : String) : Option Found :=
  match parseSpoolFilename name with
  | none => none
  | some id =>
    match t.ino ⟨dir, name⟩ with
    | none => none
    | some i =>
      if (t.node i).mtime < cutoff then none
      else some ⟨id, outcome, msSinceEpoch (t.node i).mtime, ⟨dir, name⟩⟩

theorem looks_windowEntry (dir : Dir) (outcome : String) (cutoff : ℕ) (name : String) :
    Looks C (windowEntry dir outcome cutoff name) fun t => foundOn t cutoff dir outcome name := by
  unfold windowEntry foundOn
  cases parseSpoolFilename name with
  | none => exact Looks.ret _
  | some id =>
    refine (looks_lstat.bind (b := fun md _ => match md with
      | .error _ => none
      | .ok md => if md.mtime < cutoff then none
        else some ⟨id, outcome, msSinceEpoch md.mtime, ⟨dir, name⟩⟩) fun md => ?_).congr fun t => ?_
    · rcases md with e | md
      · exact Looks.ret _
      · dsimp only
        split <;> exact Looks.ret _
    · cases t.ino ⟨dir, name⟩ <;> rfl

/-- Names a walk of a directory may be given within a budget: all there
are, or as many as the budget allows. -/
structure Given (names : List String) (left : ℕ) (given : List String) : Prop where
  sub : ∃ rest, (given ++ rest).Perm names
  length : given.length = min names.length left

/-- The loop is given names to come, and goes on until there are none or
the budget is spent. -/
theorem collectEntries_ends {left' : ℕ} (hr : ReadUpTo w dir seen s)
    (h : Ends (hostStep C Faultless) (collectEntries dir outcome cutoff left found) s
      (out, left', capped) s') :
    ∃ given rest, (seen ++ (given ++ rest)).Perm (w.names dir) ∧
      given.length = min ((w.names dir).length - seen.length) left ∧
      left' = left - given.length ∧ capped = decide (left ≤ (w.names dir).length - seen.length) ∧
      out = found ++ given.filterMap (foundOn w.fs.tree cutoff dir outcome) ∧
      s'.fs.tree = w.fs.tree := by
  induction left generalizing seen s found with
  | zero =>
    obtain ⟨heq, rfl⟩ := h
    cases heq
    obtain ⟨sc, -, hperm, -⟩ := hr.rest
    exact ⟨[], _, hperm, by simp, rfl, by simp, by simp, hr.tree⟩
  | succ left ih =>
    obtain ⟨r, s₁, h₁, h⟩ := ends_step.mp h
    rcases hr.nextEntry (fun _ h => h) h₁ with ⟨rfl, hperm, htree⟩ | ⟨e, rfl, -, hr₁⟩
    · obtain ⟨heq, rfl⟩ := h
      cases heq
      have hlen := hperm.length_eq
      exact ⟨[], [], by simpa using hperm, by simp [hlen], rfl, by simp [hlen], by simp, htree⟩
    · obtain ⟨found', s₂, h₂, h⟩ := ends_bind.mp h
      obtain ⟨rfl, n, rfl⟩ := (looks_windowEntry dir outcome cutoff e.name).ends h₂
      obtain ⟨given, rest, hperm, hlen, hleft, hcapped, hout, htree⟩ := ih (hr₁.later n) h
      have hall := hperm.length_eq
      simp only [List.length_append, List.length_singleton] at hall hlen hcapped
      refine ⟨e.name :: given, rest, by simpa using hperm, ?_, ?_, ?_, ?_, htree⟩
      · rw [List.length_cons]
        omega
      · rw [List.length_cons]
        omega
      · rw [hcapped, decide_eq_decide]
        omega
      · rw [hout, hr₁.tree, List.append_assoc, List.filterMap_cons]
        cases foundOn w.fs.tree cutoff dir outcome e.name <;> rfl

theorem collectWindow_ends {left' : ℕ} (htree : s.fs.tree = w.fs.tree)
    (h : Ends (hostStep C Faultless) (collectWindow dir outcome cutoff left found) s
      (out, left', capped) s') :
    ∃ given, Given (w.names dir) left given ∧ left' = left - given.length ∧
      capped = decide (left ≤ (w.names dir).length) ∧
      out = found ++ given.filterMap (foundOn w.fs.tree cutoff dir outcome) ∧
      s'.fs.tree = w.fs.tree := by
  obtain ⟨r, s₁, h₁, h⟩ := ends_step.mp h
  obtain ⟨rfl, hr⟩ := readUpTo_openDir (fun _ h => h) htree h₁
  obtain ⟨given, rest, hperm, hlen, hrest⟩ := collectEntries_ends hr h
  exact ⟨given, ⟨⟨rest, by simpa using hperm⟩, by simpa using hlen⟩, by simpa using hrest⟩

/-- Any names to come may be given, in any order. -/
theorem exists_collectEntries {given rest : List String} (hr : ReadUpTo w dir seen s)
    (hperm : (seen ++ (given ++ rest)).Perm (w.names dir))
    (hlen : given.length = min ((w.names dir).length - seen.length) left)
    (outcome : String) (cutoff : ℕ) (found : List Found) :
    ∃ s', Ends (hostStep C Faultless) (collectEntries dir outcome cutoff left found) s
      (found ++ given.filterMap (foundOn w.fs.tree cutoff dir outcome), left - given.length,
        decide (left ≤ (w.names dir).length - seen.length)) s' ∧ s'.fs.tree = w.fs.tree := by
  have hok : ∀ e, Faultless (.fs .nextEntry) ⟨false, 0, e⟩ := fun _ => rfl
  induction left generalizing seen s found given with
  | zero =>
    obtain rfl : given = [] := List.eq_nil_of_length_eq_zero (by omega)
    exact ⟨s, ⟨by simp, rfl⟩, hr.tree⟩
  | succ left ih =>
    cases given with
    | nil =>
      have hall := hperm.length_eq
      simp only [List.length_append, List.length_nil, List.nil_append] at hall hlen
      have hrest : rest = [] := List.eq_nil_of_length_eq_zero (by omega)
      obtain ⟨s', hend, htree⟩ := hr.exists_end (C := C) hok (by simpa [hrest] using hperm)
      refine ⟨s', ends_step.mpr ⟨_, s', hend, ?_, rfl⟩, htree⟩
      have hcap : decide (left + 1 ≤ (w.names dir).length - seen.length) = false :=
        decide_eq_false (by omega)
      rw [hcap]
      simp
    | cons name given =>
      obtain ⟨e, s₁, rfl, hnext, hr₁⟩ := hr.exists_next (C := C) hok hperm
      obtain ⟨n, hlook⟩ := (looks_windowEntry (C := C) dir outcome cutoff e.name).total s₁
      rw [List.length_cons] at hlen
      have hall := hperm.length_eq
      simp only [List.length_append, List.length_cons] at hall
      have hperm₁ : (seen ++ [e.name] ++ (given ++ rest)).Perm (w.names dir) := by simpa using hperm
      have hlen₁ : given.length = min ((w.names dir).length - (seen ++ [e.name]).length) left := by
        rw [List.length_append, List.length_singleton]
        omega
      obtain ⟨s', hend, htree⟩ := ih (hr₁.later n) hperm₁ hlen₁
        (found ++ (foundOn s₁.fs.tree cutoff dir outcome e.name).toList)
      refine ⟨s', ends_step.mpr ⟨_, s₁, hnext, ends_bind.mpr ⟨_, _, hlook, ?_⟩⟩, htree⟩
      have hcap : decide (left ≤ (w.names dir).length - (seen ++ [e.name]).length) =
          decide (left + 1 ≤ (w.names dir).length - seen.length) := by
        rw [List.length_append, List.length_singleton, decide_eq_decide]
        omega
      have hout : found ++ (foundOn s₁.fs.tree cutoff dir outcome e.name).toList ++
          given.filterMap (foundOn w.fs.tree cutoff dir outcome) =
            found ++ (e.name :: given).filterMap (foundOn w.fs.tree cutoff dir outcome) := by
        rw [hr₁.tree, List.append_assoc, List.filterMap_cons]
        cases foundOn w.fs.tree cutoff dir outcome e.name <;> rfl
      rw [hcap, hout] at hend
      rw [List.length_cons, Nat.add_sub_add_right]
      exact hend

theorem exists_collectWindow {given : List String} (htree : s.fs.tree = w.fs.tree)
    (h : Given (w.names dir) left given) (outcome : String) (cutoff : ℕ) (found : List Found) :
    ∃ s', Ends (hostStep C Faultless) (collectWindow dir outcome cutoff left found) s
      (found ++ given.filterMap (foundOn w.fs.tree cutoff dir outcome), left - given.length,
        decide (left ≤ (w.names dir).length)) s' ∧ s'.fs.tree = w.fs.tree := by
  obtain ⟨r, s₁, h₁⟩ := exists_host (o := .fs (.openDir dir)) trivial s
  obtain ⟨rfl, hr⟩ := readUpTo_openDir (fun _ h => h) htree h₁
  obtain ⟨rest, hperm⟩ := h.sub
  obtain ⟨s', hend, htree'⟩ := exists_collectEntries (C := C) hr hperm h.length outcome cutoff found
  exact ⟨s', ends_step.mpr ⟨_, s₁, h₁, hend⟩, htree'⟩

/-- What the walk of both directories finds, given these names. -/
def foundBoth (t : Files.Tree Path) (now : ℕ) (done error : List String) : List Found :=
  done.filterMap (foundOn t (cutoffAt now) .done "done") ++
    error.filterMap (foundOn t (cutoffAt now) .error "error")

/-- Names the walk of both directories may be given: what `done/` leaves of
the budget is for `error/`. -/
structure GivenBoth (w : World) (done error : List String) : Prop where
  inDone : Given (w.names .done) completedScanCap done
  inError : Given (w.names .error) (completedScanCap - done.length) error

/-- The budget is spent. -/
def scanCapped (w : World) : Bool :=
  completedScanCap ≤ (w.names .done).length + (w.names .error).length

theorem capped_both (w : World) {done : List String}
    (h : Given (w.names .done) completedScanCap done) :
    (decide (completedScanCap ≤ (w.names .done).length) ||
      decide (completedScanCap - done.length ≤ (w.names .error).length)) = scanCapped w := by
  have hlen := h.length
  unfold scanCapped
  rw [← Bool.decide_or, decide_eq_decide]
  omega

theorem walk_ends {kept : List Found} {rowCapped : Bool}
    (h : Ends (hostStep C Faultless) (walkCompleted now) w (kept, rowCapped, capped) w') :
    ∃ done error, GivenBoth w done error ∧
      kept = (sortNewest (foundBoth w.fs.tree now done error)).take completedCap ∧
      rowCapped = decide ((foundBoth w.fs.tree now done error).length > completedCap) ∧
      capped = scanCapped w ∧ w'.fs.tree = w.fs.tree := by
  obtain ⟨⟨found₁, left₁, capped₁⟩, s₁, h₁, h⟩ := ends_bind.mp h
  obtain ⟨⟨found₂, left₂, capped₂⟩, s₂, h₂, h⟩ := ends_bind.mp h
  obtain ⟨done, hdone, rfl, rfl, rfl, htree₁⟩ := collectWindow_ends rfl h₁
  obtain ⟨error, herror, rfl, rfl, rfl, htree₂⟩ := collectWindow_ends htree₁ h₂
  obtain ⟨heq, rfl⟩ := h
  cases heq
  exact ⟨done, error, ⟨hdone, herror⟩, rfl, rfl, capped_both w hdone, htree₂⟩

/-- Any names that may be given are those of some walk. -/
theorem exists_walk {done error : List String} (h : GivenBoth w done error) (now : ℕ) :
    ∃ w', Ends (hostStep C Faultless) (walkCompleted now) w
      ((sortNewest (foundBoth w.fs.tree now done error)).take completedCap,
        decide ((foundBoth w.fs.tree now done error).length > completedCap), scanCapped w) w' := by
  obtain ⟨s₁, h₁, htree₁⟩ := exists_collectWindow (C := C) rfl h.inDone "done" (cutoffAt now) []
  obtain ⟨s₂, h₂, -⟩ := exists_collectWindow (C := C) htree₁ h.inError "error" (cutoffAt now)
    ([] ++ done.filterMap (foundOn w.fs.tree (cutoffAt now) .done "done"))
  refine ⟨s₂, ends_bind.mpr ⟨_, s₁, h₁, ends_bind.mpr ⟨_, s₂, h₂, ?_, rfl⟩⟩⟩
  rw [← capped_both w h.inDone]
  rfl

/-! ## The rows -/

variable {lossy : Bytes → String} {e : Found}

/-- The first line of a sidecar. -/
def reasonOn (lossy : Bytes → String) (p : Path) (t : Files.Tree Path) : Option String :=
  match t.ino ⟨p.dir, p.name ++ ".err"⟩ with
  | none => none
  | some i =>
    if (t.node i).kind ≠ .regular then none
    else
      let line := trim ((lines (lossy ((t.node i).data.take maxErrPreviewBytes)).toList).head?.getD [])
      if line = [] then none else some (sanitizeForLog (String.ofList line))

theorem looks_errFirstLine {p : Path} : Looks C (errFirstLine lossy p) (reasonOn lossy p) := by
  refine (looks_openRead.bind (b := fun r t => match r with
    | .error _ => none
    | .ok i => if (t.node i).kind ≠ .regular then none
      else
        let line := trim
          ((lines (lossy ((t.node i).data.take maxErrPreviewBytes)).toList).head?.getD [])
        if line = [] then none else some (sanitizeForLog (String.ofList line)))
    fun r => ?_).congr fun t => ?_
  · rcases r with e | i
    · exact Looks.ret _
    refine (looks_fstat.bind (b := fun r t => match r with
      | .error _ => none
      | .ok md => if md.kind ≠ .regular then none
        else
          let line := trim
            ((lines (lossy ((t.node i).data.take maxErrPreviewBytes)).toList).head?.getD [])
          if line = [] then none else some (sanitizeForLog (String.ofList line)))
      fun r => ?_).congr fun t => rfl
    rcases r with e | md
    · exact Looks.ret _
    dsimp only
    split
    · exact Looks.ret _
    · refine (looks_read.bind (b := fun r _ => match r with
        | .error _ => none
        | .ok bytes =>
          let line := trim ((lines (lossy bytes).toList).head?.getD [])
          if line = [] then none else some (sanitizeForLog (String.ofList line)))
        fun r => ?_).congr fun t => rfl
      rcases r with e | bytes <;> exact Looks.ret _
  · unfold reasonOn Files.opened
    cases t.ino ⟨p.dir, p.name ++ ".err"⟩ with
    | none => rfl
    | some i =>
      -- a link is no regular file either
      cases hlink : (t.node i).kind.isLink with
      | false => simp only [hlink, Bool.false_eq_true, if_false]
      | true =>
        have hkind : (t.node i).kind ≠ .regular := fun hreg => by
          rw [hreg] at hlink
          cases hlink
        simp only [hlink, if_true, if_pos hkind]

/-- The row of a file found, by what it reads. -/
def rowOn (C : Codec) (lossy : Bytes → String) (e : Found) (t : Files.Tree Path) :
    CompletedSummary where
  id := toString e.id
  repo := (readResult C e.path t).toOption.map fun x => sanitizeForLog x.1.repo
  name := (readResult C e.path t).toOption.bind fun x => (parseDisplayFields C x.2).1
  outcome := e.outcome
  finishedMs := e.finishedMs
  reason := if e.outcome = "error" then reasonOn lossy e.path t else none

theorem looks_completedRow : Looks C (completedRow C lossy e) (rowOn C lossy e) := by
  have hreason : Looks C
      (if e.outcome = "error" then errFirstLine lossy e.path else pure none)
      fun t => if e.outcome = "error" then reasonOn lossy e.path t else none := by
    split
    · exact looks_errFirstLine
    · exact Looks.ret _
  exact ((looks_readSpoolFileAt e.path).bind fun shown =>
    hreason.bind fun reason => Looks.ret _).congr fun t => rfl

theorem looks_completedRows (lossy : Bytes → String) (es : List Found) :
    Looks C (completedRows C lossy es) fun t => es.map fun e => rowOn C lossy e t := by
  induction es with
  | nil => exact Looks.ret _
  | cons e es ih =>
    exact looks_completedRow.bind fun row =>
      (ih.bind fun rows => Looks.ret (row :: rows)).congr fun t => rfl

/-- What was kept is shown. -/
theorem exists_show (C : Codec) (lossy : Bytes → String) (kept : List Found)
    (rowCapped scanCapped : Bool) (w : World) :
    ∃ w', Ends (hostStep C Faultless) (showCompleted C lossy (kept, rowCapped, scanCapped)) w
      (kept.map fun e => rowOn C lossy e w.fs.tree, rowCapped || scanCapped) w' := by
  obtain ⟨n, hrows⟩ := (looks_completedRows (C := C) lossy kept).total w
  exact ⟨_, ends_bind.mpr ⟨_, _, hrows, rfl, rfl⟩⟩

end Completed

end GhaConsumer

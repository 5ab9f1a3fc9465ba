import GhaConsumer.Control.Completed
import GhaConsumer.Gc.Reading
import GhaConsumer.Host.Looking
import GhaConsumer.Interleave.Served

/-!
# Control — the orphans shown

The `/jobs` response names the VMs of its snapshot that none of its rows
in flight stands for, as those GC will reap. GC goes by the names in
`cur/` alone; a row needs a file that can be read, and there are only so
many. Where the files do not change in between, what the two make of a VM
is read off the names of `cur/`: those whose files GC takes for a claim
of it, and those whose rows would show it.
-/

namespace GhaConsumer

open Interleave Alone
open Files (Bytes)

/-! ## The model -/

/-- `JobsResponse`. -/
structure JobsResponse where
  queued : List JobSummary
  inFlight : List JobSummary
  completed : List CompletedSummary
  completedWindowHours : ℕ
  queuedTruncated : Bool
  inFlightTruncated : Bool
  completedTruncated : Bool
  vmSnapshotMs : Option ℕ
  orphanVms : List String
  deriving DecidableEq, Repr

/-- The names of a snapshot. -/
def VmSnapshot.names (s : VmSnapshot) : List String := s.vms.map (·.1)

/-- `orphan_vm_names`. -/
def orphanVmNames (snapshot : VmSnapshot) (claimed : List String) : List String :=
  (snapshot.names.filter fun vm => vm ∉ claimed).mergeSort fun a b => a ≤ b

/-- The VMs the rows stand for. -/
def claimedVms (rows : List JobSummary) : List String := rows.filterMap (·.vm)

/-- `ControlState::jobs`, with the snapshot as it is. -/
def jobs (cfg : Config) (lossy : Bytes → String) (snapshot : VmSnapshot) :
    Prog Resp JobsResponse := do
  let now ← fs .now
  let (queued, queuedTruncated) ← listActive cfg .queued (msSinceEpoch now) snapshot
  let (inFlight, inFlightTruncated) ← listActive cfg .inFlight (msSinceEpoch now) snapshot
  let (completed, completedTruncated) ← listCompleted cfg.codec lossy now
  pure {
    queued := queued
    inFlight := inFlight
    completed := completed
    completedWindowHours := completedWindow / (3600 * 1000000000)
    queuedTruncated := queuedTruncated
    inFlightTruncated := inFlightTruncated
    completedTruncated := completedTruncated
    vmSnapshotMs := if snapshot.takenMs ≠ 0 then some snapshot.takenMs else none
    orphanVms := orphanVmNames snapshot (claimedVms inFlight) }

namespace Jobs

variable {cfg : Config} {C : Codec} {F : Faults} {lossy : Bytes → String}
variable {snapshot : VmSnapshot} {nowMs : ℕ} {name vm : String} {w w' s s' : World}

theorem mem_orphanVmNames {claimed : List String} :
    vm ∈ orphanVmNames snapshot claimed ↔ vm ∈ snapshot.names ∧ vm ∉ claimed := by
  unfold orphanVmNames
  rw [List.mem_mergeSort, List.mem_filter, decide_eq_true_eq]

/-! ## The calls -/

theorem readSpoolFileAt_looks (p : Path) : (readSpoolFileAt C p).Only Op.looks :=
  (readSpoolFileAt_only C p).mono fun o ho => by
    unfold Op.reads at ho
    split at ho <;> trivial

theorem listEntry_looks (cfg : Config) (bucket : Bucket) (nowMs : ℕ) (snapshot : VmSnapshot)
    (name : String) :
    (listEntry cfg bucket nowMs snapshot name).Only Op.looks := by
  unfold listEntry
  split
  · trivial
  · refine .step trivial fun md => (readSpoolFileAt_looks _).bind fun r => ?_
    split
    · trivial
    · split
      · unfold listQueued
        split
        · trivial
        · split
          · refine Prog.Only.bind (.step trivial fun r => ?_) fun r => ?_
            · split
              · trivial
              · refine .step trivial fun r => ?_
                split
                · trivial
                · exact .step trivial fun r => trivial
            · split <;> trivial
          · trivial
      · trivial

theorem listEntries_reads (bucket : Bucket) (left : ℕ) (rows : List JobSummary) :
    (listEntries cfg bucket nowMs snapshot left rows).Only Op.readsOnly := by
  induction left generalizing rows with
  | zero => trivial
  | succ left ih =>
    refine .step trivial fun r => ?_
    split
    · exact ((listEntry_looks cfg bucket nowMs snapshot _).mono fun o ho => ho.readsOnly).bind fun row => ih _
    · trivial

theorem listActive_reads (cfg : Config) (bucket : Bucket) (nowMs : ℕ) (snapshot : VmSnapshot) :
    (listActive cfg bucket nowMs snapshot).Only Op.readsOnly := by
  refine .step trivial fun r => ?_
  split
  · trivial
  · exact listEntries_reads bucket _ _

theorem collectWindow_reads (dir : Dir) (outcome : String) (cutoff left : ℕ) (found : List Found) :
    (collectWindow dir outcome cutoff left found).Only Op.readsOnly := by
  refine .step trivial fun r => ?_
  split
  · trivial
  · induction left generalizing found with
    | zero => trivial
    | succ left ih =>
      refine .step trivial fun r => ?_
      split
      · refine Prog.Only.bind ?_ fun e => ih _
        unfold windowEntry
        split
        · trivial
        · refine .step trivial fun md => ?_
          split
          · trivial
          · split <;> trivial
      · trivial

theorem listCompleted_reads (C : Codec) (lossy : Bytes → String) (now : ℕ) :
    (listCompleted C lossy now).Only Op.readsOnly := by
  refine Prog.Only.bind ?_ fun x => Prog.Only.bind ?_ fun rows => trivial
  · refine (collectWindow_reads _ _ _ _ _).bind fun x => ?_
    exact (collectWindow_reads _ _ _ _ _).bind fun x => trivial
  · induction x.1 with
    | nil => trivial
    | cons e es ih =>
      refine Prog.Only.bind ?_ fun row => ih.bind fun rows => trivial
      refine ((readSpoolFileAt_looks _).mono fun o ho => ho.readsOnly).bind fun shown => ?_
      refine Prog.Only.bind ?_ fun reason => trivial
      split
      · refine .step trivial fun r => ?_
        split
        · trivial
        · refine .step trivial fun r => ?_
          split
          · trivial
          · split
            · trivial
            · refine .step trivial fun r => ?_
              split <;> trivial
      · trivial

/-! ## The rows -/

/-- The file of a claim can be read. -/
def readable (C : Codec) (F : Faults) (t : Files.Tree Path) (p : Path) : Bool :=
  match Files.opened t p with
  | .error _ => false
  | .ok i => !F (.openRead p) && !F (.fstat i) && !F (.read i (maxFileBytes + 1)) &&
      (readResult C p t).isOk

/-- The VM a row shows for a name in `cur/`, if there is such a row. -/
def vmShown (C : Codec) (F : Faults) (t : Files.Tree Path) (name : String) : Option String :=
  if readable C F t (curPath name) then claimedVm name else none

theorem readSpoolFileAt_readable {p : Path} {r : Except String (Envelope × Bytes)}
    (h : Ends (hostStep C (Failing F)) (readSpoolFileAt C p) w r w') :
    r.isOk = readable C F w.fs.tree p := by
  obtain ⟨r₁, w₁, h₁, h⟩ := ends_step.mp h
  obtain ⟨⟨n₁, rfl⟩, hr₁⟩ := openRead_failing h₁
  unfold readable
  rcases r₁ with e | i
  · -- it cannot be opened
    rw [h.1]
    cases hi : Files.opened w.fs.tree p with
    | error e => rfl
    | ok i =>
      have hopen : F (.openRead p) = true := by
        by_contra hopen
        have := (hr₁ i).mpr ⟨by simpa using hopen, hi⟩
        cases this
      rw [hopen]
      rfl
  obtain ⟨hopen, hi⟩ := (hr₁ i).mp rfl
  obtain ⟨r₂, w₂, h₂, h⟩ := ends_step.mp h
  obtain ⟨⟨n₂, rfl⟩, rfl⟩ := fstat_failing h₂
  simp only [hi, hopen, Bool.not_false, Bool.true_and, readResult, readNode, later_tree] at h ⊢
  cases hstat : F (.fstat i) with
  | true =>
    rw [hstat] at h
    rw [h.1]
    rfl
  | false =>
    rw [hstat] at h
    by_cases hkind : (w.fs.tree.node i).kind ≠ .regular
    · have hend : Ends _ (ite ((w.fs.tree.node i).kind ≠ .regular) _ _) _ r w' := h
      rw [if_pos hkind] at hend
      rw [hend.1, if_pos hkind]
      exact (Bool.and_false _).symm
    have h : Ends _ (ite ((w.fs.tree.node i).kind ≠ .regular) _ _) _ r w' := h
    rw [if_neg hkind] at h
    rw [if_neg hkind]
    by_cases hmax : (w.fs.tree.node i).data.length > maxFileBytes
    · have hend : Ends _ (ite ((w.fs.tree.node i).data.length > maxFileBytes) _ _) _ r w' := h
      rw [if_pos hmax] at hend
      rw [hend.1, if_pos hmax]
      exact (Bool.and_false _).symm
    have h : Ends _ (ite ((w.fs.tree.node i).data.length > maxFileBytes) _ _) _ r w' := h
    rw [if_neg hmax] at h
    rw [if_neg hmax]
    obtain ⟨r₃, w₃, h₃, h⟩ := ends_step.mp h
    obtain ⟨⟨n₃, rfl⟩, rfl⟩ := read_failing h₃
    cases hread : F (.read i (maxFileBytes + 1)) with
    | true =>
      rw [hread] at h
      rw [h.1]
      rfl
    | false =>
      -- the whole file is read, for the bound is past its end
      rw [hread] at h
      have hall : (w.fs.tree.node i).data.length ≤ maxFileBytes + 1 := by omega
      rw [h.1, later_tree, later_tree, List.take_of_length_le hall]
      rfl

/-- **What shows of a name**: the VM it claims, if its file can be read. -/
theorem listEntry_vm {row : Option JobSummary}
    (h : Ends (hostStep cfg.codec (Failing F)) (listEntry cfg .inFlight nowMs snapshot name) w
      row w') : row.bind (·.vm) = vmShown cfg.codec F w.fs.tree name := by
  unfold listEntry at h
  unfold vmShown claimedVm
  cases hid : parseSpoolFilename name with
  | none =>
    rw [hid] at h
    rw [h.1]
    split <;> rfl
  | some id =>
    rw [hid] at h
    obtain ⟨md, w₁, h₁, h⟩ := ends_step.mp h
    obtain ⟨-, n₁, -, -, rfl⟩ := look_host (o := .lstat (curPath name)) trivial h₁
    obtain ⟨e, w₂, h₂, h⟩ := ends_bind.mp h
    have hread : e.isOk = readable cfg.codec F (w.later n₁).fs.tree (curPath name) :=
      readSpoolFileAt_readable h₂
    rw [later_tree] at hread
    rw [← hread]
    rcases e with e | ⟨env, body⟩
    · rw [h.1]
      rfl
    · rw [h.1]
      rfl

/-! ## The list -/

variable {seen given rest : List String} {left : ℕ} {rows out : List JobSummary} {truncated : Bool}

theorem claimedVms_append (rows : List JobSummary) (row : Option JobSummary) :
    claimedVms (rows ++ row.toList) = claimedVms rows ++ (row.bind (·.vm)).toList := by
  unfold claimedVms
  rw [List.filterMap_append]
  cases row with
  | none => rfl
  | some row => cases h : row.vm <;> simp [h]

theorem listEntries_claims (hnext : F .nextEntry = false) (hr : ReadUpTo w .cur seen s)
    (h : Ends (hostStep cfg.codec (Failing F)) (listEntries cfg .inFlight nowMs snapshot left rows)
      s (out, truncated) s') :
    ∃ given rest, (seen ++ (given ++ rest)).Perm (w.names .cur) ∧
      given.length = min ((w.names .cur).length - seen.length) left ∧
      claimedVms out = claimedVms rows ++ given.filterMap (vmShown cfg.codec F w.fs.tree) := by
  have hok : ∀ q, Failing F (.fs .nextEntry) q → q.fails = false := fun q hq => hq.trans hnext
  induction left generalizing seen s rows with
  | zero =>
    obtain ⟨heq, rfl⟩ := h
    cases heq
    obtain ⟨sc, -, hperm, -⟩ := hr.rest
    exact ⟨[], _, hperm, by simp, by simp⟩
  | succ left ih =>
    obtain ⟨r, s₁, h₁, h⟩ := ends_step.mp h
    rcases hr.nextEntry hok h₁ with ⟨rfl, hperm, -⟩ | ⟨e, rfl, -, hr₁⟩
    · obtain ⟨heq, rfl⟩ := h
      cases heq
      exact ⟨[], [], by simpa using hperm, by simp [hperm.length_eq], by simp⟩
    · obtain ⟨row, s₂, h₂, h⟩ := ends_bind.mp h
      have hvm := listEntry_vm h₂
      obtain ⟨n, rfl⟩ := ends_later (listEntry_looks _ _ _ _ _) h₂
      obtain ⟨given, rest, hperm, hlen, hout⟩ := ih (hr₁.later n) h
      have hall := hperm.length_eq
      simp only [List.length_append, List.length_singleton] at hall hlen
      refine ⟨e.name :: given, rest, by simpa using hperm, ?_, ?_⟩
      · rw [List.length_cons]
        omega
      · rw [hout, claimedVms_append, hvm, hr₁.tree, List.append_assoc, List.filterMap_cons]
        cases vmShown cfg.codec F w.fs.tree e.name <;> rfl

/-- Any names to come may be listed, in any order. -/
theorem exists_listEntries (hnext : F .nextEntry = false) (hr : ReadUpTo w .cur seen s)
    (hperm : (seen ++ (given ++ rest)).Perm (w.names .cur))
    (hlen : given.length = min ((w.names .cur).length - seen.length) left)
    (cfg : Config) (nowMs : ℕ) (snapshot : VmSnapshot) (rows : List JobSummary) :
    ∃ out truncated s', Ends (hostStep cfg.codec (Failing F))
      (listEntries cfg .inFlight nowMs snapshot left rows) s (out, truncated) s' ∧
        claimedVms out = claimedVms rows ++ given.filterMap (vmShown cfg.codec F w.fs.tree) := by
  have hok : ∀ e, Failing F (.fs .nextEntry) ⟨false, 0, e⟩ := fun _ => hnext.symm
  induction left generalizing seen s rows given with
  | zero =>
    obtain rfl : given = [] := List.eq_nil_of_length_eq_zero (by omega)
    exact ⟨rows, true, s, ⟨rfl, rfl⟩, by simp⟩
  | succ left ih =>
    have hall := hperm.length_eq
    simp only [List.length_append] at hall
    cases given with
    | nil =>
      rw [List.length_nil] at hlen hall
      have hrest : rest = [] := List.eq_nil_of_length_eq_zero (by omega)
      obtain ⟨s', hend, -⟩ := hr.exists_end (C := cfg.codec) hok (by simpa [hrest] using hperm)
      exact ⟨rows, false, s', ends_step.mpr ⟨_, s', hend, rfl, rfl⟩, by simp⟩
    | cons name given =>
      rw [List.length_cons] at hlen hall
      obtain ⟨e, s₁, rfl, hent, hr₁⟩ := hr.exists_next (C := cfg.codec) hok hperm
      obtain ⟨row, s₂, hrow, -⟩ := exists_reading (C := cfg.codec) (F := F)
        ((listEntry_looks cfg .inFlight nowMs snapshot e.name).mono
          fun o ho => ho.readsOnly) hr₁.scanOk
      have hvm := listEntry_vm hrow
      obtain ⟨n, rfl⟩ := ends_later (listEntry_looks _ _ _ _ _) hrow
      have hlen' : given.length =
          min ((w.names .cur).length - (seen ++ [e.name]).length) left := by
        rw [List.length_append, List.length_singleton]
        omega
      obtain ⟨out, truncated, s', hend, hout⟩ := ih (hr₁.later n) (by simpa using hperm) hlen'
        (rows ++ row.toList)
      refine ⟨out, truncated, s', ends_step.mpr ⟨_, s₁, hent, ends_bind.mpr ⟨_, _, hrow, hend⟩⟩, ?_⟩
      rw [hout, claimedVms_append, hvm, hr₁.tree, List.append_assoc, List.filterMap_cons]
      cases vmShown cfg.codec F w.fs.tree e.name <;> rfl

/-- `cur/` cannot be read. -/
def curUnreadable (F : Faults) : Bool := F (.openDir .cur) || F .nextEntry

/-- The VMs of the rows in flight, where `cur/` can be read and where not. -/
def ClaimsShown (C : Codec) (F : Faults) (w : World) (claimed : List String) : Prop :=
  if curUnreadable F then claimed = []
  else ∃ given, Completed.Given (w.names .cur) activeCap given ∧
    claimed = given.filterMap (vmShown C F w.fs.tree)

theorem listActive_claims (htree : s.fs.tree = w.fs.tree)
    (h : Ends (hostStep cfg.codec (Failing F)) (listActive cfg .inFlight nowMs snapshot) s
      (out, truncated) s') : ClaimsShown cfg.codec F w (claimedVms out) := by
  obtain ⟨r, s₁, h₁, h⟩ := ends_step.mp h
  unfold ClaimsShown curUnreadable
  cases hopen : F (.openDir .cur) with
  | true =>
    obtain rfl := openDir_error hopen h₁
    obtain ⟨heq, -⟩ := h
    cases heq
    rfl
  | false =>
    obtain ⟨rfl, hr⟩ := readUpTo_openDir (fun q hq => hq.trans hopen) htree h₁
    cases hnext : F .nextEntry with
    | true =>
      obtain ⟨r, s₂, h₂, h⟩ := ends_step.mp h
      obtain rfl := nextEntry_error hnext h₂
      obtain ⟨heq, -⟩ := h
      cases heq
      rfl
    | false =>
      obtain ⟨given, rest, hperm, hlen, hout⟩ := listEntries_claims hnext hr h
      exact ⟨given, ⟨⟨rest, by simpa using hperm⟩, by simpa using hlen⟩, hout⟩

theorem exists_listActive {claimed : List String} (htree : s.fs.tree = w.fs.tree)
    (hs : ScanOk s) (h : ClaimsShown cfg.codec F w claimed) (nowMs : ℕ) (snapshot : VmSnapshot) :
    ∃ out truncated s', Ends (hostStep cfg.codec (Failing F))
      (listActive cfg .inFlight nowMs snapshot) s (out, truncated) s' ∧ claimedVms out = claimed := by
  unfold ClaimsShown at h
  split at h
  · -- any listing shows nothing
    rename_i hun
    obtain ⟨⟨out, truncated⟩, s', hend, -⟩ := exists_reading (C := cfg.codec) (F := F)
      (listActive_reads cfg .inFlight nowMs snapshot) hs
    have hnone := listActive_claims htree hend
    unfold ClaimsShown at hnone
    rw [if_pos hun] at hnone
    exact ⟨out, truncated, s', hend, hnone.trans h.symm⟩
  · rename_i hun
    obtain ⟨hopen, hnext⟩ := Bool.or_eq_false_iff.mp (Bool.not_eq_true _ ▸ hun)
    obtain ⟨given, ⟨⟨rest, hperm⟩, hlen⟩, rfl⟩ := h
    obtain ⟨r, s₁, h₁⟩ := exists_read (C := cfg.codec) (F := F) (o := .fs (.openDir .cur)) trivial
      fun _ => hs
    obtain ⟨rfl, hr⟩ := readUpTo_openDir (fun q hq => hq.trans hopen) htree h₁
    obtain ⟨out, truncated, s', hend, hout⟩ := exists_listEntries hnext hr hperm hlen
      cfg nowMs snapshot []
    exact ⟨out, truncated, s', ends_step.mpr ⟨_, s₁, h₁, hend⟩, hout⟩

/-! ## The response -/

/-- **The orphans shown** are those of the snapshot no row stands for. -/
theorem jobs_orphans {resp : JobsResponse}
    (h : Ends (hostStep cfg.codec (Failing F)) (jobs cfg lossy snapshot) w resp w') :
    ∃ claimed, ClaimsShown cfg.codec F w claimed ∧
      resp.orphanVms = orphanVmNames snapshot claimed := by
  obtain ⟨now, w₁, h₁, h⟩ := ends_step.mp h
  obtain ⟨⟨queued, queuedTruncated⟩, w₂, h₂, h⟩ := ends_bind.mp h
  obtain ⟨⟨inFlight, inFlightTruncated⟩, w₃, h₃, h⟩ := ends_bind.mp h
  obtain ⟨⟨completed, completedTruncated⟩, w₄, h₄, rfl, -⟩ := ends_bind.mp h
  have htree : w₂.fs.tree = w.fs.tree :=
    (reading_tree (listActive_reads _ _ _ _) h₂).trans (read_tree (o := .fs .now) trivial h₁)
  exact ⟨_, listActive_claims htree h₃, rfl⟩

theorem exists_jobs {claimed : List String} (h : ClaimsShown cfg.codec F w claimed)
    (lossy : Bytes → String) (snapshot : VmSnapshot) :
    ∃ resp w', Ends (hostStep cfg.codec (Failing F)) (jobs cfg lossy snapshot) w resp w' ∧
      resp.orphanVms = orphanVmNames snapshot claimed := by
  obtain ⟨now, w₁, h₁⟩ := exists_read (C := cfg.codec) (F := F) (s := w) (o := .fs .now) trivial
    (by simp)
  -- once `new/` is open, every read is answered
  obtain ⟨r, w₂, hopen⟩ := exists_read (C := cfg.codec) (F := F) (s := w₁)
    (o := .fs (.openDir .new)) trivial (by simp)
  obtain ⟨⟨queued, queuedTruncated⟩, w₃, h₃, hs₃, htree₃⟩ := exists_reading (C := cfg.codec)
    (F := F) ((listActive_reads cfg .queued (msSinceEpoch now) snapshot).2 r) (scanOk_openDir hopen)
  have htree : w₃.fs.tree = w.fs.tree := by
    rw [htree₃, read_tree (o := .fs (.openDir .new)) trivial hopen,
      read_tree (o := .fs .now) trivial h₁]
  obtain ⟨inFlight, inFlightTruncated, w₄, h₄, rfl⟩ := exists_listActive htree hs₃ h
    (msSinceEpoch now) snapshot
  obtain ⟨⟨completed, completedTruncated⟩, w₅, h₅, -⟩ := exists_reading (C := cfg.codec) (F := F)
    (listCompleted_reads _ lossy now) (reading_scanOk (listActive_reads _ _ _ _) h₄ hs₃)
  exact ⟨_, w₅, ends_step.mpr ⟨now, w₁, h₁, ends_bind.mpr ⟨_, w₃, ⟨r, w₂, hopen, h₃⟩,
    ends_bind.mpr ⟨_, w₄, h₄, ends_bind.mpr ⟨_, w₅, h₅, rfl, rfl⟩⟩⟩⟩, rfl⟩

end Jobs

end GhaConsumer

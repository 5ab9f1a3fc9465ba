import GhaConsumer.Data
import GhaConsumer.Files.Frame
import GhaConsumer.Interleave.Pool

/-!
# The host

What the daemon's tasks share: the spool's files, the runtime's permits,
pause flag and archive lock, the Lima VMs and the runners GitHub knows.
Each part has its own calls, and each call its own failures; what GitHub
answers about jobs, and what a VM does, is the outside's to decide.
-/

namespace GhaConsumer

open Files (Bytes Errno)
open Interleave (Tid)

/-! ## Directories -/

/-- The directories of the spool and of the state directory. -/
inductive Dir where
  | new | cur | done | error | logs | instances
  deriving DecidableEq, Repr

abbrev Path := Files.Path Dir String

abbrev FileState := Files.State Dir String

/-- A path in `cur/`. -/
abbrev curPath (name : String) : Path := ⟨.cur, name⟩

/-! ## The runtime -/

namespace Sched

/-- The log lines that say what the task is about to do. -/
inductive LogLine where
  /-- "gc: orphan Lima VM, deleting" -/
  | orphanVm (vm : String)
  /-- "gc: reaping stale-image VM (still claimed) and finalizing its claim to error/" -/
  | staleVm (vm : String)
  /-- "gc: removing orphan runner" -/
  | orphanRunner (runner : String)
  deriving DecidableEq, Repr

inductive Op where
  /-- `rx.recv()`: the watcher's next file name. -/
  | recv
  /-- `acquire_owned`: waits for a permit. -/
  | acquire
  | tryAcquire
  /-- Drop the permit. -/
  | release
  /-- `wait_for(|paused| !*paused)`. -/
  | waitUnpaused
  | isPaused
  /-- `lock_archive_mutation`. -/
  | lockArchive
  | unlockArchive
  /-- `spawn_job`: a task of its own that takes the permit over. -/
  | spawnJob (cur : String) (event : WorkflowJob)
  | sleep
  | log (line : LogLine)
  deriving DecidableEq

abbrev Resp : Op → Type
  | .recv => String
  | .tryAcquire | .isPaused => Bool
  | .spawnJob .. => Tid
  | _ => Unit

structure State where
  capacity : ℕ
  /-- Who holds a permit. -/
  holders : List Tid
  paused : Bool
  /-- Who holds the archive lock. -/
  archiveLock : Option Tid

/-- The name received, the thread started. -/
structure Oracle where
  name : String
  tid : Tid

def step (t : Tid) : (o : Op) → Oracle → State → Option (Resp o × State)
  | .recv, q, s => some (q.name, s)
  | .acquire, _, s =>
    if s.holders.length < s.capacity then some ((), { s with holders := t :: s.holders }) else none
  | .tryAcquire, _, s =>
    if s.holders.length < s.capacity then some (true, { s with holders := t :: s.holders })
    else some (false, s)
  | .release, _, s => some ((), { s with holders := s.holders.erase t })
  | .waitUnpaused, _, s => if s.paused then none else some ((), s)
  | .isPaused, _, s => some (s.paused, s)
  | .lockArchive, _, s =>
    if s.archiveLock = none then some ((), { s with archiveLock := some t }) else none
  | .unlockArchive, _, s =>
    some ((), if s.archiveLock = some t then { s with archiveLock := none } else s)
  | .spawnJob .., q, s => some (q.tid, { s with holders := q.tid :: s.holders.erase t })
  | .sleep, _, s => some ((), s)
  | .log _, _, s => some ((), s)

/-- A task's end drops its permit and its lock. -/
def leave (t : Tid) (s : State) : State where
  capacity := s.capacity
  holders := s.holders.erase t
  paused := s.paused
  archiveLock := if s.archiveLock = some t then none else s.archiveLock

end Sched

/-! ## Lima -/

/-- The non-empty lines of a text. -/
def splitLines (bs : Bytes) : List Bytes :=
  (bs.splitOn 10).filter (· ≠ [])

/-- `parse_list_json`. -/
def parseListJson (C : Codec) (stdout : Bytes) : List LimaInstance :=
  (splitLines stdout).filterMap C.decodeInstance

namespace Lima

/-- The `limactl` commands, each with its timeout, and the files of an
instance. -/
inductive Op where
  | start (name : String)
  | copyInto (name : String)
  /-- Spawn `limactl shell`. -/
  | shellStart (name : String)
  /-- Wait for the shell to end or the watchdog's next tick to come due. -/
  | shellOrTick
  /-- Whether the shell has ended. -/
  | shellPoll
  /-- Wait for the shell to end. -/
  | shellWait
  | stop (name : String)
  | delete (name : String)
  | list
  /-- Read `lima_template`. -/
  | readTemplate
  /-- Read `<dir>/lima.yaml`. -/
  | readYaml (dir : String)
  /-- Read the tail of `<dir>/<file>`. -/
  | readTail (dir file : String)
  deriving DecidableEq, Repr

/-- What `run_with_timeout` returns. -/
abbrev Outcome := Except String ExitStatus

/-- What a captured command returns: its status, stdout and stderr. -/
abbrev Captured := Except String (ExitStatus × Bytes × String)

abbrev Resp : Op → Type
  | .start _ | .copyInto _ | .shellWait | .stop _ | .delete _ => Outcome
  | .shellStart _ => Except String Unit
  | .shellOrTick | .shellPoll => Option Outcome
  | .list => Captured
  | .readTemplate | .readYaml _ => Except Errno String
  | .readTail .. => Except Errno (Option String)

structure Vm where
  /-- A number of its own, never used again. -/
  id : ℕ
  name : String
  dir : Option String
  /-- The realized `lima.yaml`. -/
  yaml : String
  deriving DecidableEq, Repr

structure State where
  vms : List Vm
  nextId : ℕ
  template : String

/-- How a command ended, whether a failed one took effect all the same,
and what was read. -/
structure Oracle where
  outcome : Outcome
  effect : Bool
  ended : Bool
  stdout : Bytes
  text : String
  dir : Option String
  found : Option String

/-- The command ran, and ended with success. -/
def exitedOk : Outcome → Bool
  | .ok status => status.success
  | .error _ => false

def Oracle.success (q : Oracle) : Bool := exitedOk q.outcome

def State.named (s : State) (name : String) : Option Vm := s.vms.find? (·.name = name)

/-- The listing shows the VMs there are. -/
def State.shows (s : State) (rows : List LimaInstance) : Bool :=
  rows.all (fun r => s.vms.any fun v => v.name = r.name && v.dir = r.dir) &&
    s.vms.all (fun v => rows.any fun r => r.name = v.name)

/-- What a command does. Lima is not part of the repository; it is taken
to do what its manual says. No name is used twice at once, and a VM
started is a new one. A `start` or `delete` that succeeds has taken
effect; one that fails may have. A `delete` removes the VM of that name
and no other, and nothing else removes one. A listing that succeeds
parses to the VMs there are, and no others. -/
def step (C : Codec) : (o : Op) → Oracle → State → Option (Resp o × State)
  | .start name, q, s =>
    if (s.named name).isSome then
      if q.success then none else some (q.outcome, s)
    else if q.success || q.effect then
      some (q.outcome,
        { s with vms := ⟨s.nextId, name, q.dir, q.text⟩ :: s.vms, nextId := s.nextId + 1 })
    else some (q.outcome, s)
  | .copyInto _, q, s => some (q.outcome, s)
  | .shellStart _, q, s =>
    some (match q.outcome with | .ok _ => .ok () | .error e => .error e, s)
  | .shellOrTick, q, s => some (if q.ended then some q.outcome else none, s)
  | .shellPoll, q, s => some (if q.ended then some q.outcome else none, s)
  | .shellWait, q, s => some (q.outcome, s)
  | .stop _, q, s => some (q.outcome, s)
  | .delete name, q, s =>
    if q.success || q.effect then
      some (q.outcome, { s with vms := s.vms.filter (·.name ≠ name) })
    else some (q.outcome, s)
  | .list, q, s =>
    match q.outcome with
    | .error e => some (.error e, s)
    | .ok st =>
      if st.success && !s.shows (parseListJson C q.stdout) then none
      else some (.ok (st, q.stdout, q.text), s)
  | .readTemplate, q, s => some (if q.ended then .error .other else .ok s.template, s)
  | .readYaml dir, q, s =>
    match s.vms.find? (·.dir = some dir) with
    | none => some (.error .notFound, s)
    | some v => some (if q.ended then .error .other else .ok v.yaml, s)
  | .readTail .., q, s => some (if q.ended then .error .other else .ok q.found, s)

end Lima

/-! ## GitHub -/

namespace Hub

/-- The calls of `GhClient`. -/
inductive Op where
  | generateJitConfig (owner repo name : String) (labels : List String)
  | listRunners (owner repo pre : String)
  | runnerStatus (owner repo : String) (id : ℕ)
  | deleteRunner (owner repo : String) (id : ℕ)
  | jobStatus (owner repo : String) (id : JobId)
  | listQueuedJobs (owner repo : String)
  deriving DecidableEq, Repr

abbrev Resp : Op → Type
  | .generateJitConfig .. => Except String JitConfigResp
  | .listRunners .. => Except String (List Runner)
  | .runnerStatus .. => Except String (Option Runner)
  | .deleteRunner .. => Except String Unit
  | .jobStatus .. => Except String (Option JobStatus)
  | .listQueuedJobs _ _ => Except String (List JobStatus)

/-- A runner registered with a repository. -/
structure Registration where
  /-- GitHub's id, never used again. -/
  id : ℕ
  name : String
  owner : String
  repo : String
  deriving DecidableEq, Repr

structure State where
  runners : List Registration
  nextId : ℕ
  /-- No id so far is `nextId` or later. -/
  old : ∀ g ∈ runners, g.id < nextId
  unique : (runners.map (·.id)).Nodup

/-- Whether the call fails, and with what text; whether it took effect all
the same; and GitHub's answers. -/
structure Oracle where
  fails : Option String
  effect : Bool
  text : String
  runners : List Runner
  runner : Option Runner
  job : Option JobStatus
  jobs : List JobStatus

/-- No runners. -/
def State.empty : State := ⟨[], 0, by simp, by simp⟩

def State.register (s : State) (owner repo name : String) : State where
  runners := ⟨s.nextId, name, owner, repo⟩ :: s.runners
  nextId := s.nextId + 1
  old g hg := by
    rcases List.mem_cons.mp hg with rfl | hg
    · exact Nat.lt_succ_self _
    · exact Nat.lt_succ_of_lt (s.old g hg)
  unique := by
    refine List.nodup_cons.mpr ⟨fun hmem => ?_, s.unique⟩
    obtain ⟨g, hg, heq⟩ := List.mem_map.mp hmem
    exact absurd (s.old g hg) (Nat.not_lt.mpr (le_of_eq heq.symm))

/-- The runners in `keep` alone. -/
def State.keep (s : State) (keep : Registration → Bool) : State where
  runners := s.runners.filter keep
  nextId := s.nextId
  old g hg := s.old g (List.mem_of_mem_filter hg)
  unique := s.unique.sublist (List.filter_sublist.map _)

/-- A runner GitHub may list for a repository: one registered with it. -/
def State.knows (s : State) (owner repo : String) (r : Runner) : Bool :=
  s.runners.any fun g => g.id = r.id && g.name = r.name && g.owner = owner && g.repo = repo

/-- What a call does. GitHub is taken to do what its interface promises.
It gives no id twice. A registration or a deletion it confirms has taken
effect; one that fails may have. A deletion goes by the repository and the
id, and removes that runner and no other. A list of runners it answers
names only runners registered with the repository under the prefix, not
always all of them. What it says of a runner's state and of jobs is free. -/
def step : (o : Op) → Oracle → State → Option (Resp o × State)
  | .generateJitConfig owner repo name _, q, s =>
    match q.fails with
    | none => some (.ok ⟨s.nextId, name, q.text⟩, s.register owner repo name)
    | some e => some (.error e, if q.effect then s.register owner repo name else s)
  | .listRunners owner repo pre, q, s =>
    match q.fails with
    | some e => some (.error e, s)
    | none =>
      if q.runners.all fun r => s.knows owner repo r && pre.toList.isPrefixOf r.name.toList then
        some (.ok q.runners, s)
      else none
  | .runnerStatus .., q, s =>
    some (match q.fails with | some e => .error e | none => .ok q.runner, s)
  | .deleteRunner owner repo id, q, s =>
    let s' := s.keep fun g => !(g.id = id && g.owner = owner && g.repo = repo)
    match q.fails with
    | none => some (.ok (), s')
    | some e => some (.error e, if q.effect then s' else s)
  | .jobStatus .., q, s => some (match q.fails with | some e => .error e | none => .ok q.job, s)
  | .listQueuedJobs .., q, s =>
    some (match q.fails with | some e => .error e | none => .ok q.jobs, s)

/-- No id is given twice. -/
theorem nextId_le_of_step {o : Op} {q : Oracle} {r : Resp o} {s s' : State}
    (h : step o q s = some (r, s')) : s.nextId ≤ s'.nextId := by
  cases o with
  | generateJitConfig owner repo name labels =>
    simp only [step] at h
    split at h <;> cases h
    · exact Nat.le_succ _
    · split
      · exact Nat.le_succ _
      · exact le_refl _
  | listRunners owner repo pre =>
    simp only [step] at h
    split at h
    · cases h
      exact le_refl _
    · split at h <;> cases h
      exact le_refl _
  | deleteRunner owner repo id =>
    simp only [step] at h
    split at h <;> cases h
    · exact le_refl _
    · split <;> exact le_refl _
  | runnerStatus | jobStatus | listQueuedJobs =>
    simp only [step, Option.some.injEq, Prod.mk.injEq] at h
    rw [← h.2]

/-- A runner listed has been given its id. -/
theorem lt_nextId_of_listed {owner repo pre : String} {q : Oracle} {runners : List Runner}
    {s s' : State} (h : step (.listRunners owner repo pre) q s = some (.ok runners, s')) :
    s' = s ∧ ∀ r ∈ runners, r.id < s.nextId := by
  simp only [step] at h
  split at h
  · cases h
  · split at h <;> cases h
    rename_i hall
    refine ⟨rfl, fun r hr => ?_⟩
    have hknown := List.all_eq_true.mp hall r hr
    obtain ⟨g, hg, hid⟩ := List.any_eq_true.mp (Bool.and_eq_true_iff.mp hknown).1
    simp only [Bool.and_eq_true, decide_eq_true_eq] at hid
    rw [← hid.1.1.1]
    exact s.old g hg

end Hub

/-! ## All of it -/

structure World where
  fs : FileState
  sched : Sched.State
  lima : Lima.State
  hub : Hub.State

/-- One atomic call. -/
inductive Op where
  | fs (o : Files.Op Dir String)
  | sched (o : Sched.Op)
  | lima (o : Lima.Op)
  | hub (o : Hub.Op)
  deriving DecidableEq

abbrev Resp : Op → Type
  | .fs o => Files.Resp o
  | .sched o => Sched.Resp o
  | .lima o => Lima.Resp o
  | .hub o => Hub.Resp o

abbrev Oracle : Op → Type
  | .fs _ => Files.Oracle String
  | .sched _ => Sched.Oracle
  | .lima _ => Lima.Oracle
  | .hub _ => Hub.Oracle

def step (C : Codec) (t : Tid) : (o : Op) → Oracle o → World → Option (Resp o × World)
  | .fs o, q, w => (Files.step t o q w.fs).map fun (r, s) => (r, { w with fs := s })
  | .sched o, q, w => (Sched.step t o q w.sched).map fun (r, s) => (r, { w with sched := s })
  | .lima o, q, w => (Lima.step C o q w.lima).map fun (r, s) => (r, { w with lima := s })
  | .hub o, q, w => (Hub.step o q w.hub).map fun (r, s) => (r, { w with hub := s })

variable {C : Codec} {t : Tid} {w w' : World}

/-- A file system call is one of the files' state. -/
theorem step_fs {o : Files.Op Dir String} {r : Files.Resp o} {q : Files.Oracle String}
    (h : step C t (.fs o) q w = some (r, w')) :
    ∃ s, Files.step t o q w.fs = some (r, s) ∧ w' = { w with fs := s } := by
  obtain ⟨⟨r', s⟩, hs, heq⟩ := Option.map_eq_some_iff.mp h
  cases heq
  exact ⟨s, hs, rfl⟩

/-- A call of the runtime is one of the runtime's state. -/
theorem step_sched {o : Sched.Op} {r : Sched.Resp o} {q : Sched.Oracle}
    (h : step C t (.sched o) q w = some (r, w')) :
    ∃ s, Sched.step t o q w.sched = some (r, s) ∧ w' = { w with sched := s } := by
  obtain ⟨⟨r', s⟩, hs, heq⟩ := Option.map_eq_some_iff.mp h
  cases heq
  exact ⟨s, hs, rfl⟩

/-- A call of GitHub is one of GitHub's state. -/
theorem step_hub {o : Hub.Op} {r : Hub.Resp o} {q : Hub.Oracle}
    (h : step C t (.hub o) q w = some (r, w')) :
    ∃ s, Hub.step o q w.hub = some (r, s) ∧ w' = { w with hub := s } := by
  obtain ⟨⟨r', s⟩, hs, heq⟩ := Option.map_eq_some_iff.mp h
  cases heq
  exact ⟨s, hs, rfl⟩

/-- No call takes an id back. -/
theorem nextId_le_of_step {o : Op} {r : Resp o} {q : Oracle o} (h : step C t o q w = some (r, w')) :
    w.hub.nextId ≤ w'.hub.nextId := by
  cases o with
  | hub o =>
    obtain ⟨s, hs, rfl⟩ := step_hub h
    exact Hub.nextId_le_of_step hs
  | fs o | sched o | lima o =>
    obtain ⟨⟨r', s⟩, hs, heq⟩ := Option.map_eq_some_iff.mp h
    cases heq
    exact le_refl _

/-- Any other call leaves the files alone. -/
theorem fs_of_step {o : Op} {r : Resp o} {q : Oracle o} (h : step C t o q w = some (r, w'))
    (ho : ∀ o', o ≠ .fs o') : w'.fs = w.fs := by
  cases o with
  | fs o' => exact absurd rfl (ho o')
  | sched o' | lima o' | hub o' =>
    obtain ⟨⟨r', s⟩, hs, heq⟩ := Option.map_eq_some_iff.mp h
    cases heq
    rfl

/-- No call moves the clock. -/
theorem now_of_step {o : Op} {r : Resp o} {q : Oracle o} (h : step C t o q w = some (r, w')) :
    w'.fs.now = w.fs.now := by
  cases o with
  | fs o =>
    obtain ⟨s, hs, rfl⟩ := step_fs h
    exact Files.now_of_step hs
  | _ => rw [fs_of_step h (by simp)]

/-- What the outside does by itself: nobody but the daemon uses `cur/`,
`done/`, `error/` or Lima, and GitHub may register and drop any runner. -/
inductive Env where
  /-- The spooler puts a file into `new/`. -/
  | deliver (name : String) (file : Files.Node)
  | tick (n : ℕ)
  /-- The control endpoint, or a shutdown. -/
  | setPaused (b : Bool)
  /-- Some other runner registers. -/
  | register (owner repo name : String)
  /-- A runner's registration ends. -/
  | deregister (id : ℕ)

def Env.step : Env → World → World
  | .deliver name file, w => { w with fs := w.fs.create ⟨.new, name⟩ file }
  | .tick n, w => { w with fs := { w.fs with now := w.fs.now + n } }
  | .setPaused b, w => { w with sched := { w.sched with paused := b } }
  | .register owner repo name, w => { w with hub := w.hub.register owner repo name }
  | .deregister id, w =>
    { w with hub := w.hub.keep fun g => g.id ≠ id }

/-- What a task's end changes. -/
def World.leave (t : Tid) (w : World) : World :=
  { w with fs := Files.leave t w.fs, sched := Sched.leave t w.sched }

/-- The outside touches no file but in `new/`. -/
theorem Env.ino_step (e : Env) {p : Path} (hp : p.dir ≠ .new) :
    (e.step w).fs.tree.ino p = w.fs.tree.ino p := by
  cases e with
  | deliver name file =>
    exact Files.Tree.ino_create_of_ne fun h => hp (congrArg Files.Path.dir h)
  | _ => rfl

/-- Nor does it change a file there was. -/
theorem Env.node_step (e : Env) {i : Files.Ino} (hi : i < w.fs.tree.next) :
    (e.step w).fs.tree.node i = w.fs.tree.node i := by
  cases e with
  | deliver name file => exact Files.Tree.node_create_of_ne (Nat.ne_of_lt hi)
  | _ => rfl

theorem Env.next_le_step (e : Env) : w.fs.tree.next ≤ (e.step w).fs.tree.next := by
  cases e with
  | deliver name file => exact Nat.le_succ _
  | _ => exact le_refl _

/-- A file there was is found where it was. -/
theorem Env.ino_of_step (e : Env) {p : Path} {i : Files.Ino}
    (h : (e.step w).fs.tree.ino p = some i) (hi : i < w.fs.tree.next) :
    w.fs.tree.ino p = some i := by
  cases e with
  | deliver name file =>
    have h : (w.fs.tree.create ⟨.new, name⟩ file).ino p = some i := h
    by_cases hp : p = ⟨.new, name⟩
    · subst hp
      rw [Files.Tree.ino_create_self] at h
      exact absurd hi (by rw [← Option.some.inj h]; exact Nat.lt_irrefl _)
    · rwa [Files.Tree.ino_create_of_ne hp] at h
  | _ => exact h

/-- Nor does the outside take an id back. -/
theorem Env.nextId_le_step (e : Env) : w.hub.nextId ≤ (e.step w).hub.nextId := by
  cases e with
  | register owner repo name => exact Nat.le_succ _
  | _ => exact le_refl _

/-- The clock does not go back. -/
theorem Env.now_le_step (e : Env) : w.fs.now ≤ (e.step w).fs.now := by
  cases e with
  | tick n => exact Nat.le_add_right _ n
  | _ => exact le_refl _

end GhaConsumer

import GhaConsumer.Interleave.Pool

/-!
# Warm lock — the model

The host-level lock of `mac-cache/common.sh`: warm processes that share
one base directory, each running `acquire_lock`, its critical section
and `release_lock`. Every command that looks at or changes the base
directory is one operation, so that two tests of one shell condition
are two steps and anything may happen in between. A process is a thread
and its PID is the thread's name, which is never used again.
-/

namespace GhaConsumer

namespace WarmLock

open Interleave

/-- A process id. -/
abbrev Pid := Tid

/-- What stands at `lock_dir`. -/
inductive Slot where
  | absent
  /-- A symlink to its owner's PID. -/
  | link (owner : Pid)
  /-- A legacy directory lock, with the contents of its `pid` file. -/
  | dir (pid : Option Pid)
  deriving DecidableEq, Repr

/-- The base directory, the processes alive, and each one's two flags. -/
structure World where
  lockDir : Slot
  /-- Whether `reclaim_lock_dir` exists. -/
  reclaimLockDir : Bool
  alive : Pid → Bool
  held : Pid → Bool
  reclaiming : Pid → Bool
  /-- The clock `$SECONDS` reads. -/
  seconds : ℕ

/-- The commands of the script, and the reads and writes of its flags. -/
inductive Op where
  /-- `[ -d "$lock_dir" ]`. -/
  | testDir
  /-- `[ -L "$lock_dir" ]`. -/
  | testLink
  /-- `readlink "$lock_dir"`. -/
  | readlink
  /-- `[ -f "$lock_dir/pid" ]`. -/
  | testPidFile
  /-- `cat "$lock_dir/pid"`. -/
  | catPid
  /-- `ln -s "$$" "$lock_dir"`. -/
  | lnS
  /-- `kill -0 "$pid"`. -/
  | kill0 (pid : Pid)
  /-- `mkdir "$reclaim_lock_dir"`. -/
  | mkdirReclaim
  /-- `rmdir "$reclaim_lock_dir"`. -/
  | rmdirReclaim
  /-- `rm -rf "$lock_dir"`. -/
  | rmRf
  /-- `rm -f "$lock_dir"`. -/
  | rmF
  /-- `$SECONDS`. -/
  | seconds
  /-- `sleep`. -/
  | sleep
  | getHeld
  | setHeld (b : Bool)
  | getReclaiming
  | setReclaiming (b : Bool)
  /-- A piece of the critical section; says whether more is to come. -/
  | work
  deriving DecidableEq, Repr

/-- The exit status of a test or a command that may fail, or the text
read; the empty text is `none`. -/
abbrev Resp : Op → Type
  | .testDir | .testLink | .testPidFile | .kill0 _ | .lnS | .mkdirReclaim => Bool
  | .getHeld | .getReclaiming | .work => Bool
  | .readlink | .catPid => Option Pid
  | .seconds => ℕ
  | .rmdirReclaim | .rmRf | .rmF | .sleep | .setHeld _ | .setReclaiming _ => Unit

namespace Slot

/-- `-L`. -/
def isLink : Slot → Bool
  | .link _ => true
  | _ => false

/-- `-d`. -/
def isDir : Slot → Bool
  | .dir _ => true
  | _ => false

/-- The target of the symlink, if it is one. -/
def target : Slot → Option Pid
  | .link p => some p
  | _ => none

/-- What the `pid` file of a directory lock holds. -/
def pidFile : Slot → Option Pid
  | .dir o => o
  | _ => none

@[simp] theorem target_eq_some {s : Slot} {p : Pid} : s.target = some p ↔ s = link p := by
  cases s <;> simp [target]

end Slot

/-- What an operation of process `t` does. A command that changes the
directory may fail (`fails`) and then changes nothing; `ln -s` onto a
directory succeeds without making a lock, and `rm -f` leaves a directory
alone. -/
def step (t : Pid) : (o : Op) → (fails : Bool) → World → Option (Resp o × World)
  | .testDir, _, w => some (w.lockDir.isDir, w)
  | .testLink, _, w => some (w.lockDir.isLink, w)
  | .readlink, _, w => some (w.lockDir.target, w)
  | .testPidFile, _, w => some (w.lockDir.pidFile.isSome, w)
  | .catPid, _, w => some (w.lockDir.pidFile, w)
  | .lnS, fails, w =>
    if fails then some (false, w)
    else match w.lockDir with
      | .absent => some (true, { w with lockDir := .link t })
      | .link _ => some (false, w)
      | .dir _ => some (true, w)
  | .kill0 p, _, w => some (w.alive p, w)
  | .mkdirReclaim, fails, w =>
    if fails || w.reclaimLockDir then some (false, w)
    else some (true, { w with reclaimLockDir := true })
  | .rmdirReclaim, fails, w =>
    some ((), { w with reclaimLockDir := w.reclaimLockDir && fails })
  | .rmRf, fails, w => some ((), if fails then w else { w with lockDir := .absent })
  | .rmF, fails, w =>
    some ((), if fails || w.lockDir.isDir then w else { w with lockDir := .absent })
  | .seconds, _, w => some (w.seconds, w)
  | .sleep, _, w => some ((), w)
  | .getHeld, _, w => some (w.held t, w)
  | .setHeld b, _, w => some ((), { w with held := Function.update w.held t b })
  | .getReclaiming, _, w => some (w.reclaiming t, w)
  | .setReclaiming b, _, w =>
    some ((), { w with reclaiming := Function.update w.reclaiming t b })
  | .work, more, w => some (more, w)

/-! ## The script -/

/-- Run one operation. -/
abbrev call (o : Op) : Prog Resp (Resp o) := Prog.op o

/-- `release_lock`. -/
def releaseLock : Prog Resp Unit := do
  if ← call .getReclaiming then
    call .rmdirReclaim
    call (.setReclaiming false)
  if ← call .getHeld then
    call .rmF

/-- `lock_owner`. -/
def lockOwner : Prog Resp (Option Pid) := do
  if ← call .testLink then
    call .readlink
  else if ← call .testDir then
    if ← call .testPidFile then call .catPid else pure none
  else pure none

/-- `{ [ -L "$lock_dir" ] || [ -d "$lock_dir" ]; }`. -/
def lockPresent : Prog Resp Bool := do
  if ← call .testLink then pure true else call .testDir

/-- `[ -n "$owner" ] && kill -0 "$owner"`. -/
def ownerAlive : Option Pid → Prog Resp Bool
  | none => pure false
  | some p => call (.kill0 p)

/-- The condition of `reclaim_if_stale`: there is a lock, and `owner` is
empty or not alive. -/
def lockIsStale (owner : Option Pid) : Prog Resp Bool := do
  if ← lockPresent then
    return !(← ownerAlive owner)
  else pure false

/-- `reclaim_if_stale`. -/
def reclaimIfStale : Prog Resp Bool := do
  if ← call .mkdirReclaim then
    call (.setReclaiming true)
    let owner ← lockOwner
    if ← lockIsStale owner then
      call .rmRf
      call .rmdirReclaim
      call (.setReclaiming false)
      pure true
    else
      call .rmdirReclaim
      call (.setReclaiming false)
      pure false
  else pure false

/-- Where a warm process stands. -/
inductive Task where
  /-- At the call of `acquire_lock`. -/
  | acquire
  /-- At the head of its loop, which began at `start`. -/
  | attempt (start : ℕ)
  /-- Between the return of `acquire_lock` and the call of `release_lock`. -/
  | critical
  /-- At the call of `release_lock`, also from the trap of an exit. -/
  | release
  deriving DecidableEq, Repr

/-- `ln -s` behind its guard against a directory. -/
def takeLock : Prog Resp Bool := do
  if ← call .testDir then pure false else call .lnS

/-- The bounded wait at the end of the loop's body. -/
def waitForLock (start : ℕ) : Prog Resp (Option Task) := do
  let now ← call .seconds
  if 60 ≤ now - start then
    pure (some .release)
  else
    call .sleep
    pure (some (.attempt start))

/-- One turn of the loop of `acquire_lock`. -/
def attemptLock (start : ℕ) : Prog Resp (Option Task) := do
  if ← takeLock then
    call (.setHeld true)
    pure (some .critical)
  else
    let owner ← lockOwner
    if ← ownerAlive owner then waitForLock start
    else if ← reclaimIfStale then pure (some (.attempt start))
    else waitForLock start

/-- A warm script, as far as the lock goes. -/
def body : Task → Prog Resp (Option Task)
  | .acquire => do
    let start ← call .seconds
    pure (some (.attempt start))
  | .attempt start => attemptLock start
  | .critical => do
    if ← call .work then pure (some .critical) else pure (some .release)
  | .release => do
    releaseLock
    pure none

/-- Processes that share a base directory. A process that ends or is
killed is no longer alive; killed, it leaves all else as it stands.
Outside the processes only time passes. -/
@[reducible] def machine : Machine Resp Task World where
  body := body
  Oracle _ := Bool
  step := step
  forks _ _ := none
  Env := ℕ
  env n w := some { w with seconds := w.seconds + n }
  leave t w := { w with alive := Function.update w.alive t false }
  crash t w := some { w with alive := Function.update w.alive t false }

/-! ## Starting points -/

section Starting

variable {Call : Type} {Answer : Call → Type}

/-- A starting point: every process is about to call `acquire_lock`, and
the lock is absent or its owner is dead. -/
structure Initial (M : Machine Answer Task World) (c : Interleave.Config Answer Task World) :
    Prop where
  threads : ∀ t k p, c.threads t = some (k, p) →
    t < c.next ∧ k = .acquire ∧ p = M.body .acquire ∧ c.world.alive t = true ∧
      c.world.held t = false ∧ c.world.reclaiming t = false
  lock : ∀ p, c.world.lockDir = .link p ∨ c.world.lockDir = .dir (some p) →
    c.world.alive p = false
  trace : c.trace = []

/-- `n` processes about to take the lock that stands. -/
def startingPoint (M : Machine Answer Task World) (n : ℕ) (lock : Slot) :
    Interleave.Config Answer Task World where
  world := {
    lockDir := lock
    reclaimLockDir := false
    alive := fun t => decide (t < n)
    held := fun _ => false
    reclaiming := fun _ => false
    seconds := 0 }
  next := n
  trace := []
  threads t := if t < n then some (.acquire, M.body .acquire) else none

theorem startingPoint_initial (M : Machine Answer Task World) (n : ℕ) {lock : Slot}
    (h : ∀ p, lock = .link p ∨ lock = .dir (some p) → n ≤ p) :
    Initial M (startingPoint M n lock) where
  threads t k p ht := by
    simp only [startingPoint] at ht
    split at ht
    · rename_i hlt
      cases ht
      exact ⟨hlt, rfl, rfl, decide_eq_true hlt, rfl, rfl⟩
    · cases ht
  lock p hp := by simpa [startingPoint] using h p hp
  trace := rfl

/-- A dead process's symlink is such a lock. -/
theorem startingPoint_dead (M : Machine Answer Task World) {n : ℕ} {p : Pid} (h : n ≤ p) :
    Initial M (startingPoint M n (.link p)) := by
  refine startingPoint_initial M n fun q hq => ?_
  rcases hq with hq | hq
  · cases hq
    exact h
  · cases hq

/-- `n` steps of process `t`; no command fails and no signal comes. -/
def steps {M : Machine Answer Task World} [∀ o, Inhabited (M.Oracle o)] (t : Pid) (n : ℕ) :
    List M.Move :=
  .replicate n (.call t fun _ => default)

end Starting

end WarmLock

end GhaConsumer

import GhaConsumer.Interleave.Pool

/-!
# Warmer — candidates and the coalescer

`run_candidate` warms the cache for a commit that is the tip of its
repository's default branch. One push emits many events for one tip: the
`Coalescer` marks the tip, and who finds a fresh mark leaves it at that.
A warm that fails before it builds takes its own mark away again.

Each use of the coalescer's map under its lock is one call. What
`run_warm` does is left outside: whether it got to build is its answer.
-/

namespace GhaConsumer

namespace Warmer

open Interleave

/-- Monotonic time and its durations, in nanoseconds. -/
abbrev Instant := ℕ

abbrev Duration := ℕ

structure WarmCandidate where
  owner : String
  repo : String
  repoId : UInt64
  headBranch : String
  headSha : String
  deriving DecidableEq, Repr

/-- `CoalesceKey`. -/
structure CoalesceKey where
  owner : String
  repo : String
  headBranch : String
  headSha : String
  deriving DecidableEq, Repr

def WarmCandidate.coalesceKey (c : WarmCandidate) : CoalesceKey :=
  ⟨c.owner, c.repo, c.headBranch, c.headSha⟩

/-! ## `Coalescer` -/

/-- What is marked, and since when. -/
abbrev Seen := CoalesceKey → Option Instant

namespace Seen

/-- `retain`: a mark stays while it is younger than `ttl`. -/
def retain (seen : Seen) (ttl : Duration) (now : Instant) : Seen :=
  fun key => (seen key).filter fun t => now - t < ttl

/-- `check_and_mark`. -/
def checkAndMark (seen : Seen) (ttl : Duration) (key : CoalesceKey) (now : Instant) : Bool × Seen :=
  let seen := seen.retain ttl now
  if (seen key).isSome then (false, seen) else (true, Function.update seen key (some now))

/-- `clear`. -/
def clear (seen : Seen) (key : CoalesceKey) (marked : Instant) : Seen :=
  if seen key = some marked then Function.update seen key none else seen

end Seen

/-! ## `run_candidate` -/

inductive Op where
  /-- Of the semaphore: a permit, or none. -/
  | tryAcquire
  | defaultBranch (owner repo : String)
  | branchTip (owner repo branch : String)
  /-- `Instant::now()`. -/
  | now
  | checkAndMark (key : CoalesceKey) (now : Instant)
  /-- `run_warm`: false where it failed before any build. -/
  | runWarm (cand : WarmCandidate) (defaultBranch : String)
  | clear (key : CoalesceKey) (marked : Instant)
  deriving DecidableEq, Repr

@[reducible] def Resp : Op → Type
  | .tryAcquire => Bool
  | .defaultBranch .. => Except String String
  | .branchTip .. => Except String String
  | .now => Instant
  | .checkAndMark .. => Bool
  | .runWarm .. => Bool
  | .clear .. => Unit

abbrev Program := Prog Resp

abbrev op (o : Op) : Program (Resp o) := Prog.op o

/-- `eq_ignore_ascii_case`. -/
def eqIgnoreAsciiCase (a b : String) : Bool :=
  a.toList.map Char.toLower == b.toList.map Char.toLower

/-- The job's branch is the default branch, and its commit the tip of it. -/
def confirm (cand : WarmCandidate) : Program (Option String) := do
  match ← op (.defaultBranch cand.owner cand.repo) with
  | .error _ => pure none
  | .ok defaultBranch =>
    if cand.headBranch ≠ defaultBranch then pure none
    else
      match ← op (.branchTip cand.owner cand.repo defaultBranch) with
      | .error _ => pure none
      | .ok tip =>
        if eqIgnoreAsciiCase tip cand.headSha then pure (some defaultBranch) else pure none

/-- What is done with a confirmed tip. -/
def warmOnce (cand : WarmCandidate) (defaultBranch : String) : Program Unit := do
  let marked ← op .now
  if ← op (.checkAndMark cand.coalesceKey marked) then
    if ← op (.runWarm cand defaultBranch) then pure ()
    else op (.clear cand.coalesceKey marked)
  else pure ()

/-- `run_candidate`. The permit is held to the task's end. -/
def runCandidate (cand : WarmCandidate) : Program Unit := do
  if ← op .tryAcquire then
    match ← confirm cand with
    | some defaultBranch => warmOnce cand defaultBranch
    | none => pure ()
  else pure ()

/-! ## The machine -/

/-- What the tasks share. -/
structure World where
  seen : Seen
  /-- Who holds a permit. -/
  permits : List Tid

/-- What an operation leaves open. -/
@[reducible] def Oracle : Op → Type
  | .defaultBranch .. => Except String String
  | .branchTip .. => Except String String
  | .now => Instant
  | .runWarm .. => Bool
  | _ => Unit

variable (ttl : Duration) (capacity : ℕ)

def step (t : Tid) : (o : Op) → Oracle o → World → Option (Resp o × World)
  | .tryAcquire, _, w =>
    if w.permits.length < capacity then some (true, { w with permits := t :: w.permits })
    else some (false, w)
  | .defaultBranch .., r, w => some (r, w)
  | .branchTip .., r, w => some (r, w)
  | .now, r, w => some (r, w)
  | .checkAndMark key now, _, w =>
    let marked := w.seen.checkAndMark ttl key now
    some (marked.1, { w with seen := marked.2 })
  | .runWarm .., r, w => some (r, w)
  | .clear key marked, _, w => some ((), { w with seen := w.seen.clear key marked })

/-- The permit comes back. -/
def leave (t : Tid) (w : World) : World := { w with permits := w.permits.erase t }

/-- Tasks for any candidates, in any order, each of which may be dropped
at any point. -/
@[reducible] def machine : Machine Resp WarmCandidate World where
  body cand := runCandidate cand >>= fun _ => pure none
  Oracle := Oracle
  step := step ttl capacity
  forks _ _ := none
  Env := Empty
  env e := nomatch e
  leave := leave
  crash t w := some (leave t w)

end Warmer

end GhaConsumer

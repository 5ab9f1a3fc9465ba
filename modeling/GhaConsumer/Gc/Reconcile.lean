import GhaConsumer.Gc.Model

/-!
# GC — the reconciler, the model

`reconcile_inner`: for each queued job that no claim and no idle runner
covers, a permit, a synthetic claim and a worker.
-/

namespace GhaConsumer

open Files (Errno)

/-- `should_mint`. -/
def shouldMint (vm : String) (live idle : List String) : Bool :=
  !live.contains vm && !idle.contains vm

/-- `runner_can_serve`. -/
def runnerCanServe (r : Runner) : Bool := r.status == "online" && !r.busy

/-- The names of the runners that can take a queued job. -/
def idleRunners (runners : List Runner) : List String :=
  (runners.filter fun r => isManagedVmName r.name && runnerCanServe r).map fun r => r.name

/-- `build_event`. -/
def buildEvent (fullName : String) (job : JobStatus) : WorkflowJob where
  action := "queued"
  workflowJob := {
    id := job.id
    runId := job.runId
    runAttempt := job.runAttempt
    headBranch := none
    headSha := none
    name := job.name
    labels := job.labels }
  repository := { id := job.repoId, fullName := fullName }

/-- Claim a job and start its worker, on a permit held. -/
def mintClaimed (repoFull : String) (job : JobStatus) : Proc Unit := do
  match ← call (.writeSyntheticClaim job repoFull) with
  | .ok (some cur) =>
    let _ ← hostSched (.spawnJob cur (buildEvent repoFull job))
    pure ()
  | _ => hostSched .release

/-- Mint for one job on a free permit; `false` ends the pass. -/
def mintJob (repoFull : String) (job : JobStatus) : Proc Bool := do
  let permit ← hostSched .tryAcquire
  if !permit then pure false
  else
    let paused ← hostSched .isPaused
    if paused then
      hostSched .release
      pure false
    else
      mintClaimed repoFull job
      pure true

/-- One queued job, and what comes after it. -/
def mintNext (cfg : Config) (repoFull : String) (live idle : List String) (job : JobStatus)
    (rest : Proc Bool) : Proc Bool :=
  match classifyJobLabels cfg.codec job.labels cfg.runnerLabel cfg.runnerLabels with
  | .reject _ => rest
  | .accept =>
    if !shouldMint (vmName job.id) live idle then rest
    else do
      let more ← mintJob repoFull job
      if more then rest else pure false

/-- The queued jobs of one repository; `false` ends the pass. -/
def mintQueued (cfg : Config) (repoFull : String) (live idle : List String) :
    List JobStatus → Proc Bool
  | [] => pure true
  | job :: rest => do
    let paused ← hostSched .isPaused
    if paused then pure false
    else mintNext cfg repoFull live idle job (mintQueued cfg repoFull live idle rest)

/-- One repository, and what comes after it. -/
def reconcileNext (cfg : Config) (live : List String) (repoFull : String) (rest : Proc Unit) :
    Proc Unit :=
  match splitOnce repoFull with
  | none => rest
  | some (owner, repo) => do
    match ← hostHub (.listRunners owner repo vmNamePrefix) with
    | .error _ => rest
    | .ok runners =>
      match ← hostHub (.listQueuedJobs owner repo) with
      | .error _ => rest
      | .ok queued =>
        let more ← mintQueued cfg repoFull live (idleRunners runners) queued
        if more then rest else pure ()

/-- The repositories. -/
def reconcileRepos (cfg : Config) (live : List String) : List String → Proc Unit
  | [] => pure ()
  | repoFull :: rest => do
    let paused ← hostSched .isPaused
    if paused then pure ()
    else reconcileNext cfg live repoFull (reconcileRepos cfg live rest)

/-- `reconcile_inner`. -/
def reconcileInner (cfg : Config) (fuel : ℕ) : Proc (Except Errno Unit) := do
  match ← liveVmMapFromCur fuel with
  | .error e => pure (.error e)
  | .ok claims => do
    reconcileRepos cfg claims.keys cfg.allowedRepos
    pure (.ok ())

/-! ## Which calls it makes -/

/-- The calls that mint for one job. -/
def Call.mints : Call → Prop
  | .host (.sched .isPaused) | .host (.sched .tryAcquire) | .host (.sched .release)
  | .host (.sched (.spawnJob ..)) | .writeSyntheticClaim .. => True
  | _ => False

/-- The calls of the reconciler once it knows the claims. -/
def Call.reconciles : Call → Prop
  | .host (.hub (.listRunners ..)) | .host (.hub (.listQueuedJobs ..)) => True
  | c => c.mints

/-- Where mints are allowed, so is the rest. -/
theorem Call.mints.reconciles {c : Call} (h : c.mints) : c.reconciles := by
  unfold Call.mints at h
  split at h <;> trivial

section Calls

variable {cfg : Config} {repoFull : String} {live idle : List String} {job : JobStatus}

theorem mintClaimed_calls : (mintClaimed repoFull job).Only Call.mints := by
  refine .step trivial fun r => ?_
  split
  · exact .step trivial fun _ => trivial
  · exact Interleave.Prog.only_op trivial

theorem mintJob_calls : (mintJob repoFull job).Only Call.mints := by
  refine .step trivial fun permit => ?_
  split
  · trivial
  · refine .step trivial fun paused => ?_
    split
    · exact .step trivial fun _ => trivial
    · exact mintClaimed_calls.bind fun _ => trivial

/-- A queue is minted for job by job. -/
theorem mintQueued_calls (queue : List JobStatus) :
    (mintQueued cfg repoFull live idle queue).Only Call.mints := by
  induction queue with
  | nil => trivial
  | cons job rest ih =>
    refine .step trivial fun paused => ?_
    split
    · trivial
    · unfold mintNext
      split
      · exact ih
      · split
        · exact ih
        · refine mintJob_calls.bind fun more => ?_
          split
          · exact ih
          · trivial

/-- GitHub is only asked for runners and queued jobs. -/
theorem reconcileRepos_calls (repos : List String) :
    (reconcileRepos cfg live repos).Only Call.reconciles := by
  induction repos with
  | nil => trivial
  | cons repoFull rest ih =>
    refine .step trivial fun paused => ?_
    split
    · trivial
    · unfold reconcileNext
      split
      · exact ih
      · refine .step trivial fun r => ?_
        split
        · exact ih
        · refine .step trivial fun r => ?_
          split
          · exact ih
          · refine ((mintQueued_calls _).mono fun _ hc => hc.reconciles).bind fun more => ?_
            split
            · exact ih
            · trivial

end Calls

end GhaConsumer

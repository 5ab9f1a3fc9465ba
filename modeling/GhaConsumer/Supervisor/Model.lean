import GhaConsumer.Runner.Model

/-!
# Supervisor — the model

The dispatcher's side of `supervisor.rs`: what becomes of a file name out
of `new/` (`prepare`), and the worker that `spawn_job` starts.
-/

namespace GhaConsumer

open Interleave

/-! ## The worker -/

/-- `CompletionAction`; the two are told apart for the log alone. -/
inductive CompletionAction where
  | done
  | steal
  deriving DecidableEq, Repr

/-- `completion_action`. -/
def completionAction : Option String → CompletionAction
  | some "queued" => .steal
  | _ => .done

/-- `completion_action_via_api`. -/
def completionActionViaApi (ownerRepo : String) (jobId : JobId) : Prog Resp CompletionAction :=
  match splitOnce ownerRepo with
  | none => pure .done
  | some (owner, repo) => do
    match ← hub (.jobStatus owner repo jobId) with
    | .ok job => pure (completionAction (job.map fun s => s.status))
    | .error _ => pure .done

/-- The completion check of `spawn_job`, where it is on. -/
def completionCheck (cfg : Config) (event : WorkflowJob) : Prog Resp CompletionAction :=
  if cfg.jobCompletionCheck then
    completionActionViaApi event.repository.fullName event.workflowJob.id
  else pure .done

/-- The finalize of `spawn_job`, by what the job came to. -/
def finalizeJob (cfg : Config) (cur : String) (event : WorkflowJob) :
    Except String Unit → Prog Resp Unit
  | .ok () => do
    let _ ← completionCheck cfg event
    let _ ← finalizeDone cur
    pure ()
  | .error e => do
    let _ ← finalizeError cur e
    pure ()

/-- The task that `spawn_job` starts. -/
def worker (cfg : Config) (fuel : ℕ) (cur : String) (event : WorkflowJob) : Prog Resp Unit := do
  let outcome ← runJob cfg fuel event
  finalizeJob cfg cur event outcome

/-! ## The dispatcher -/

/-- `Prepared`. -/
inductive Prepared where
  | run (cur : String) (event : WorkflowJob)
  | drop (cur reason : String)
  | reject (cur reason : String)
  | skip
  deriving DecidableEq, Repr

/-- What an entry's verdict makes of its claim. -/
def Prepared.ofVerdict (cur : String) : EntryVerdict → Prepared
  | .run event => .run cur event
  | .drop reason => .drop cur reason
  | .reject reason => .reject cur reason

/-- `prepare` once the claim is made. -/
def prepareClaim (cfg : Config) (name : String) (id : JobId) (cur : String) : Prog Resp Prepared :=
  if name ≠ jobFileName id then
    pure (.reject cur (s!"non-canonical filename {cfg.codec.debugStr (sanitizeForLog name)} " ++
      s!"for id {id} (expected {jobFileName id})"))
  else do
    match ← readSpoolFile cfg.codec cur with
    | .error e => pure (.reject cur s!"read/parse spool file: {e}")
    | .ok (env, body) =>
      pure (.ofVerdict cur (classifyValidatedEntry cfg.codec id env body cfg.webhookSecret
        cfg.allowedRepos cfg.runnerLabel cfg.runnerLabels))

/-- `prepare`. -/
def prepare (cfg : Config) (name : String) : Prog Resp Prepared :=
  match parseSpoolFilename name with
  | none => pure .skip
  | some id => do
    match ← tryClaim name with
    | .ok (some cur) => prepareClaim cfg name id cur
    | _ => pure .skip

/-- What the dispatch loop does with a prepared entry; its permit goes to
the worker or is dropped. -/
def dispatchPrepared : Prepared → Prog Resp Unit
  | .run cur event => do
    let _ ← sched (.spawnJob cur event)
    pure ()
  | .drop cur _ => do
    let _ ← finalizeDone cur
    sched .release
  | .reject cur reason => do
    let _ ← finalizeError cur reason
    sched .release
  | .skip => sched .release

/-- The dispatch loop's wait for a permit: whether it has got one and is
not paused. -/
def acquirePermit : Prog Resp Bool := do
  sched .waitUnpaused
  sched .acquire
  let paused ← sched .isPaused
  if paused then
    sched .release
    pure false
  else pure true

end GhaConsumer

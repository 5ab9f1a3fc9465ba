import GhaConsumer.Supervisor.Model

/-!
# Control — the model

The job listing of the control endpoint (`control.rs`): the entries of
`new/` that would run, and those of `cur/` as they are. Instants are in
milliseconds since the epoch; the policy is the daemon's own.
-/

namespace GhaConsumer

open Interleave
open Files (Bytes DirEntry Meta)

/-! ## Data -/

/-- `VmSnapshot`. -/
structure VmSnapshot where
  takenMs : ℕ
  vms : List (String × Option String)
  deriving DecidableEq, Repr

/-- `vms.get(vm).cloned().flatten()`. -/
def VmSnapshot.status (s : VmSnapshot) (vm : String) : Option String := (s.vms.lookup vm).join

/-- `JobSummary`. -/
structure JobSummary where
  id : String
  repo : String
  name : Option String
  labels : List String
  runId : Option String
  enqueuedMs : Option ℕ
  claimedMs : Option ℕ
  ageSecs : UInt64
  vm : Option String
  vmStatus : Option String
  deriving DecidableEq, Repr

inductive Bucket where
  | queued
  | inFlight
  deriving DecidableEq, Repr

/-- `ACTIVE_CAP`. -/
def activeCap : ℕ := 500

/-- `ms_since_epoch` of an instant in nanoseconds. -/
def msSinceEpoch (t : ℕ) : ℕ := t / 1000000

/-- `control.rs`'s `age_secs`. -/
def ageSecsMs (nowMs thenMs : ℕ) : UInt64 :=
  if (nowMs - thenMs) / 1000 < 2 ^ 64 then UInt64.ofNat ((nowMs - thenMs) / 1000)
  else UInt64.ofNat (2 ^ 64 - 1)

/-- `parse_display_fields`. -/
def parseDisplayFields (C : Codec) (body : Bytes) :
    Option String × List String × Option String :=
  match C.decodeJob body with
  | .ok wj => (some (sanitizeForLog wj.workflowJob.name), wj.workflowJob.labels.map sanitizeForLog,
      some (toString wj.workflowJob.runId))
  | .error _ => (none, [], none)

/-! ## Rows -/

/-- The row of a queued job. -/
def queuedRow (id : JobId) (env : Envelope) (event : WorkflowJob) (nowMs : ℕ)
    (mtimeMs : Option ℕ) : JobSummary :=
  let enqueuedMs := if env.receivedAtMs ≠ 0 then env.receivedAtMs else mtimeMs.getD 0
  { id := toString id
    repo := sanitizeForLog event.repository.fullName
    name := some (sanitizeForLog event.workflowJob.name)
    labels := event.workflowJob.labels.map sanitizeForLog
    runId := some (toString event.workflowJob.runId)
    enqueuedMs := some enqueuedMs
    claimedMs := none
    ageSecs := ageSecsMs nowMs enqueuedMs
    vm := none
    vmStatus := none }

/-- The row of a job in flight. -/
def inFlightRow (C : Codec) (id : JobId) (env : Envelope) (body : Bytes) (nowMs : ℕ)
    (mtimeMs : Option ℕ) (snapshot : VmSnapshot) : JobSummary :=
  let (name, labels, runId) := parseDisplayFields C body
  let claimedMs := mtimeMs.getD 0
  { id := toString id
    repo := sanitizeForLog env.repo
    name := name
    labels := labels
    runId := runId
    enqueuedMs := none
    claimedMs := some claimedMs
    ageSecs := ageSecsMs nowMs claimedMs
    vm := some (vmName id)
    vmStatus := snapshot.status (vmName id) }

/-! ## The listing -/

/-- `already_claimed_or_archived`. -/
def alreadyClaimedOrArchived (name : String) : Prog Resp Bool := do
  if ← fs (.tryExists (curPath name)) then pure true
  else if ← fs (.tryExists ⟨.done, name⟩) then pure true
  else fs (.tryExists ⟨.error, name⟩)

/-- What `list_active` shows of an entry of `new/` it has read. -/
def listQueued (cfg : Config) (nowMs : ℕ) (name : String) (id : JobId) (mtimeMs : Option ℕ)
    (env : Envelope) (body : Bytes) : Prog Resp (Option JobSummary) :=
  if name ≠ jobFileName id then pure none
  else match classifyValidatedEntry cfg.codec id env body cfg.webhookSecret cfg.allowedRepos
      cfg.runnerLabel cfg.runnerLabels with
    | .run event => do
      if ← alreadyClaimedOrArchived name then pure none
      else pure (some (queuedRow id env event nowMs mtimeMs))
    | _ => pure none

/-- The directory of a bucket. -/
def Bucket.dir : Bucket → Dir
  | .queued => .new
  | .inFlight => .cur

/-- The modification time in milliseconds, if there is one. -/
def mtimeMs : Except Files.Errno Meta → Option ℕ
  | .ok md => some (msSinceEpoch md.mtime)
  | .error _ => none

/-- `list_active` at one entry. -/
def listEntry (cfg : Config) (bucket : Bucket) (nowMs : ℕ) (snapshot : VmSnapshot)
    (name : String) : Prog Resp (Option JobSummary) :=
  match parseSpoolFilename name with
  | none => pure none
  | some id => do
    let md ← fs (.lstat ⟨bucket.dir, name⟩)
    match ← readSpoolFileAt cfg.codec ⟨bucket.dir, name⟩ with
    | .error _ => pure none
    | .ok (env, body) =>
      match bucket with
      | .queued => listQueued cfg nowMs name id (mtimeMs md) env body
      | .inFlight =>
        pure (some (inFlightRow cfg.codec id env body nowMs (mtimeMs md) snapshot))

/-- The loop of `list_active`, with what is left of `ACTIVE_CAP`: the rows,
and whether the cap was reached. -/
def listEntries (cfg : Config) (bucket : Bucket) (nowMs : ℕ) (snapshot : VmSnapshot) :
    ℕ → List JobSummary → Prog Resp (List JobSummary × Bool)
  | 0, rows => pure (rows, true)
  | left + 1, rows => do
    match ← fs .nextEntry with
    | .ok (some ent) => do
      let row ← listEntry cfg bucket nowMs snapshot ent.name
      listEntries cfg bucket nowMs snapshot left (rows ++ row.toList)
    | _ => pure (rows, false)

/-- `list_active`. -/
def listActive (cfg : Config) (bucket : Bucket) (nowMs : ℕ) (snapshot : VmSnapshot) :
    Prog Resp (List JobSummary × Bool) := do
  match ← fs (.openDir bucket.dir) with
  | .error _ => pure ([], false)
  | .ok () => listEntries cfg bucket nowMs snapshot activeCap []

end GhaConsumer

import GhaConsumer.Daemon.Lima
import GhaConsumer.Gc.Image

/-!
# Runner — the model

One job's life, from `runner.rs`: mint a runner, boot a VM, run the agent
in it against the dispatch watchdog, keep the console's tail, tear all
down. The stages are tried in order and the teardown runs whatever they
returned.
-/

namespace GhaConsumer

open Interleave
open Files (Bytes Errno)

/-! ## Repository names -/

/-- `str::split_once('/')`. -/
def splitOnce (s : String) : Option (String × String) :=
  match s.toList.span (· ≠ '/') with
  | (owner, _ :: repo) => some (String.ofList owner, String.ofList repo)
  | (_, []) => none

/-- A name split is the two halves put together. -/
theorem splitOnce_eq {full owner repo : String} (h : splitOnce full = some (owner, repo)) :
    full = owner ++ "/" ++ repo := by
  unfold splitOnce at h
  split at h
  · rename_i os c cs hspan
    cases h
    rw [List.span_eq_takeWhile_dropWhile, Prod.mk.injEq] at hspan
    obtain ⟨rfl, hdrop⟩ := hspan
    have hslash : c = '/' := by
      have hhead := List.head?_dropWhile_not (fun c => decide (c ≠ '/')) full.toList
      rw [hdrop] at hhead
      simpa using hhead
    have happend := List.takeWhile_append_dropWhile (p := (decide <| · ≠ '/')) (l := full.toList)
    rw [hdrop, hslash] at happend
    rw [← String.toList_inj]
    simp only [String.toList_append, String.toList_ofList, List.append_assoc]
    exact happend.symm
  · cases h

/-- `is_safe_repo_segment`. The length is in bytes in the source; where
all of them are these, bytes are characters. -/
def isSafeRepoSegment (s : String) : Bool :=
  s ≠ "" && s.toList.length ≤ 100 &&
    s.toList.all fun c => c.isAlphanum || c == '.' || c == '_' || c == '-'

/-- `split_full_name`. -/
def splitFullName (full : String) : Except String (String × String) :=
  match splitOnce full with
  | none => .error s!"expected owner/repo, got {full}"
  | some (owner, repo) =>
    if owner = "" ∨ repo = "" ∨ '/' ∈ repo.toList then
      .error s!"not a single owner/repo pair: {full}"
    else if !isSafeRepoSegment owner || !isSafeRepoSegment repo then
      .error (s!"owner/repo {full} contains unsafe characters; " ++
        "expected [A-Za-z0-9._-]\x7b1,100\x7d on each side")
    else .ok (owner, repo)

/-! ## Private files -/

/-- The body of `write_jit_blob` and of `write_serial_evidence`: unlink
what is there, and create the file anew. -/
def replacePrivateFile (what : String) (p : Path) (contents : Bytes) :
    Prog Resp (Except String Unit) := do
  match ← fs (.removeFile p) with
  | .error .alreadyExists => pure (.error s!"remove stale {what} {p.name}: {errnoText .alreadyExists}")
  | .error .other => pure (.error s!"remove stale {what} {p.name}: {errnoText .other}")
  | _ =>
    match ← writePrivateFile p contents with
    | .error e => pure (.error (errnoText e))
    | .ok () => pure (.ok ())

/-- `jit_path`. -/
def jitPath (vm : String) : Path := ⟨.instances, vm ++ ".jit"⟩

/-- `write_jit_blob`. -/
def writeJitBlob (vm : String) (contents : Bytes) : Prog Resp (Except String Unit) :=
  replacePrivateFile "JIT blob" (jitPath vm) contents

/-- Where the console's tail is kept. -/
def serialPath (vm : String) : Path := ⟨.logs, vm ++ ".serial.log"⟩

/-- `write_serial_evidence`. -/
def writeSerialEvidence (vm : String) (contents : Bytes) : Prog Resp (Except String Unit) :=
  replacePrivateFile "serial log" (serialPath vm) contents

/-! ## The watchdog -/

/-- `RunnerObs`. -/
inductive RunnerObs where
  | busy
  | idle
  | gone
  | unknown
  deriving DecidableEq, Repr

/-- `DispatchVerdict`. -/
inductive DispatchVerdict where
  | continue
  | abort (reason : String)
  deriving DecidableEq, Repr

/-- `dispatch_verdict`, on times in nanoseconds. -/
def dispatchVerdict (obs : RunnerObs) (elapsed deadline : ℕ) : DispatchVerdict :=
  match obs with
  | .busy | .unknown => .continue
  | .gone =>
    if elapsed ≤ deadline then .continue
    else .abort "registration lost before the runner ran any job"
  | .idle =>
    if elapsed ≤ deadline then .continue
    else .abort "runner stayed idle without ever picking up a job"

/-- `ConfirmAction`. -/
inductive ConfirmAction where
  | hold
  | waitToConfirm (reason : String)
  | abort (reason : String)
  deriving DecidableEq, Repr

/-- `confirm_abort`. -/
def confirmAbort (pending : Bool) : DispatchVerdict → ConfirmAction
  | .abort reason => if pending then .abort reason else .waitToConfirm reason
  | .continue => .hold

/-- `observe_runner`. -/
def observeRunner (owner repo : String) (runnerId : ℕ) : Prog Resp RunnerObs := do
  match ← hub (.runnerStatus owner repo runnerId) with
  | .ok (some r) =>
    if r.busy then pure .busy
    else if r.status = "online" then pure .idle
    else pure .gone
  | .ok none => pure .gone
  | .error _ => pure .unknown

/-- How the race between the agent and the watchdog ends. -/
inductive RaceEnd where
  | exited (outcome : Lima.Outcome)
  | aborted (reason : String)

/-- The loop of `watch_dispatch` in the race `run_in_vm` selects: the
agent's end is looked for first whenever the watchdog has something to
say. With no fuel left the watchdog makes no more polls. -/
def watchDispatch (owner repo : String) (runnerId start deadline : ℕ) :
    (fuel : ℕ) → (pending : Bool) → Prog Resp RaceEnd
  | 0, _ => do pure (.exited (← lima .shellWait))
  | fuel + 1, pending => do
    match ← lima .shellOrTick with
    | some outcome => pure (.exited outcome)
    | none =>
      let obs ← observeRunner owner repo runnerId
      match ← lima .shellPoll with
      | some outcome => pure (.exited outcome)
      | none =>
        if obs = .busy then pure (.exited (← lima .shellWait))
        else
          let now ← fs .now
          match confirmAbort pending (dispatchVerdict obs (now - start) deadline) with
          | .abort reason => pure (.aborted reason)
          | .waitToConfirm _ => watchDispatch owner repo runnerId start deadline fuel true
          | .hold => watchDispatch owner repo runnerId start deadline fuel pending

/-- `gha-run-once` in the VM, against the watchdog where there is one. -/
def runAgent (cfg : Config) (fuel : ℕ) (vm owner repo : String) (runnerId : ℕ) :
    Prog Resp RaceEnd := do
  match ← lima (.shellStart vm) with
  | .error e => pure (.exited (.error e))
  | .ok () =>
    if cfg.dispatchDeadlineSecs = 0 then pure (.exited (← lima .shellWait))
    else
      let start ← fs .now
      watchDispatch owner repo runnerId start (cfg.dispatchDeadlineSecs.toNat * 1000000000) fuel
        false

/-! ## The job -/

/-- What `run_in_vm` makes of the race. -/
def raceResult (event : WorkflowJob) : RaceEnd → Except String Unit
  | .aborted reason => .error s!"dispatch watchdog aborted runner: {reason}"
  | .exited (.error e) => .error s!"run gha-run-once: {e}"
  | .exited (.ok exit) =>
    if exit.success then .ok ()
    else .error (s!"runner exited non-zero ({exit.text}); " ++
      s!"repo={sanitizeForLog event.repository.fullName} " ++
      s!"job={sanitizeForLog event.workflowJob.name}")

/-- `run_in_vm`. -/
def runInVm (cfg : Config) (fuel : ℕ) (event : WorkflowJob) (vm : String) (jit : JitConfigResp)
    (owner repo : String) : Prog Resp (Except String Unit) := do
  match ← writeJitBlob vm jit.encodedJitConfig.toUTF8.toList with
  | .error e => pure (.error s!"write JIT blob to {(jitPath vm).name}: {e}")
  | .ok () =>
    match ← Lima.startVm vm with
    | .error e => pure (.error s!"start Lima VM: {e}")
    | .ok () =>
      match ← Lima.copyJit vm with
      | .error e => pure (.error s!"copy JIT blob into VM: {e}")
      | .ok () =>
        let race ← runAgent cfg fuel vm owner repo jit.runnerId
        pure (raceResult event race)

/-- `detect_guest_oom`: whether some line says so. -/
def detectGuestOom (tail : String) : Bool :=
  (lines tail.toList).any fun line =>
    let l := line.map Char.toLower
    decide ("out of memory".toList <:+: l) || decide ("oom-kill:".toList <:+: l)

/-- `capture_oom_evidence`. -/
def captureOomEvidence (cfg : Config) (vm : String) : Prog Resp Unit := do
  match ← Lima.serialLogTail cfg.codec vm with
  | .ok (some tail) =>
    if detectGuestOom tail then
      let _ ← writeSerialEvidence vm tail.toUTF8.toList
      pure ()
    else pure ()
  | _ => pure ()

/-- `teardown`. -/
def teardown (cfg : Config) (vm owner repo : String) (runnerId : ℕ) : Prog Resp Unit := do
  let _ ← Lima.stopVm vm
  let _ ← Lima.deleteVm cfg.codec vm
  let _ ← fs (.removeFile (jitPath vm))
  let _ ← hub (.deleteRunner owner repo runnerId)
  pure ()

/-- `run_job`. -/
def runJob (cfg : Config) (fuel : ℕ) (event : WorkflowJob) : Prog Resp (Except String Unit) :=
  match splitFullName event.repository.fullName with
  | .error e => pure (.error s!"repo name: {event.repository.fullName}: {e}")
  | .ok (owner, repo) => do
    let vm := vmNameForEvent event
    match ← hub (.generateJitConfig owner repo vm event.workflowJob.labels) with
    | .error e => pure (.error s!"mint JIT runner config: {e}")
    | .ok jit =>
      let inner ← runInVm cfg fuel event vm jit owner repo
      captureOomEvidence cfg vm
      teardown cfg vm owner repo jit.runnerId
      pure inner

end GhaConsumer

import GhaConsumer.Names
import GhaConsumer.Files.Tree

/-!
# Data

What the program reads and writes: spool envelopes, webhook bodies,
GitHub's answers, Lima's listing, and the configuration. What other
libraries compute (HMAC, JSON, `{:?}`) are the fields of a `Codec`.
-/

namespace GhaConsumer

open Files (Bytes)

/-- `spool.rs`'s `Envelope`. -/
structure Envelope where
  schema : UInt32
  event : String
  delivery : String
  repoId : UInt64
  repo : String
  action : String
  workflowJobId : JobId
  receivedAtMs : ℕ
  signature : String
  deriving DecidableEq, Repr

/-- `event.rs`'s `WorkflowJobInfo`. -/
structure WorkflowJobInfo where
  id : JobId
  runId : UInt64
  runAttempt : UInt64
  headBranch : Option String
  headSha : Option String
  name : String
  labels : List String
  deriving DecidableEq, Repr

/-- `event.rs`'s `Repository`. -/
structure Repository where
  id : UInt64
  fullName : String
  deriving DecidableEq, Repr

/-- `event.rs`'s `WorkflowJob`. -/
structure WorkflowJob where
  action : String
  workflowJob : WorkflowJobInfo
  repository : Repository
  deriving DecidableEq, Repr

/-- `jit.rs`'s `JobStatus`. -/
structure JobStatus where
  id : JobId
  status : String
  runId : UInt64
  runAttempt : UInt64
  name : String
  labels : List String
  repoId : UInt64
  deriving DecidableEq, Repr

/-- `jit.rs`'s `Runner`. -/
structure Runner where
  id : ℕ
  name : String
  status : String
  busy : Bool
  deriving DecidableEq, Repr

/-- `jit.rs`'s `JitConfigResp`. -/
structure JitConfigResp where
  runnerId : ℕ
  runnerName : String
  encodedJitConfig : String
  deriving DecidableEq, Repr

/-- `lima/mod.rs`'s `LimaInstance`. -/
structure LimaInstance where
  name : String
  dir : Option String
  status : Option String
  deriving DecidableEq, Repr

/-- How a child process ended: whether with success, and what `{}` prints
of it. -/
structure ExitStatus where
  success : Bool
  text : String
  deriving DecidableEq, Repr

/-- What the libraries compute. -/
structure Codec where
  hmacSha256 : (secret body : Bytes) → Bytes
  decodeEnvelope : Bytes → Except String Envelope
  decodeJob : Bytes → Except String WorkflowJob
  encodeEnvelope : Envelope → Bytes
  /-- The body of a synthetic record: a queued job without a head. -/
  encodeJob : WorkflowJob → Bytes
  /-- A line of `limactl list --json`, where it is a row with a name. -/
  decodeInstance : Bytes → Option LimaInstance
  /-- `{:?}` of a string. -/
  debugStr : String → String

/-- `{:?}` of a list of strings. -/
def Codec.debugList (C : Codec) (v : List String) : String :=
  "[" ++ ", ".intercalate (v.map C.debugStr) ++ "]"

/-- The order in which a hash map gives its entries: any. -/
structure HashOrder where
  list : List (String × String) → List (String × String)
  perm : ∀ l, (list l).Perm l

/-- The part of the configuration the modelled code reads, with the
secret and the label set resolved. -/
structure Config where
  codec : Codec
  order : HashOrder
  /-- The process's own id. -/
  pid : ℕ
  webhookSecret : Bytes
  allowedRepos : List String
  runnerLabel : String
  runnerLabels : List String
  maxConcurrency : ℕ
  jobMaxRuntimeSecs : UInt64
  apiTimeoutSecs : UInt64
  gcIntervalSecs : UInt64
  reconcileIntervalSecs : UInt64
  dispatchDeadlineSecs : UInt64
  dispatchPollSecs : UInt64
  archiveRetentionSecs : UInt64
  serialLogRetentionSecs : UInt64
  jobCompletionCheck : Bool
  reconcileEnabled : Bool

/-- `Job::vm_name`, `vm_name_for_event`. -/
def vmNameForEvent (event : WorkflowJob) : String := vmName event.workflowJob.id

end GhaConsumer

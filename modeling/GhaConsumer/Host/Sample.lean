import GhaConsumer.Host.Alone

/-!
# A host to run on

A small configuration, a world given by its files, and the answers of a
host on which every call succeeds: what schedules are followed from.
-/

namespace GhaConsumer

open Files (Bytes Node)

/-! ## Configuration -/

/-- The one job there is. -/
def sampleJob : WorkflowJob where
  action := "queued"
  workflowJob := {
    id := 42
    runId := 7
    runAttempt := 1
    headBranch := none
    headSha := none
    name := "build"
    labels := ["mac"] }
  repository := { id := 1, fullName := "o/r" }

def sampleEnvelope : Envelope where
  schema := 2
  event := "workflow_job"
  delivery := "d"
  repoId := 1
  repo := "o/r"
  action := "queued"
  workflowJobId := 42
  receivedAtMs := 0
  signature := "sha256=" ++ String.ofList (.replicate 64 '0')

/-- What GitHub says of the job. -/
def sampleStatus : JobStatus where
  id := 42
  status := "queued"
  runId := 7
  runAttempt := 1
  name := "build"
  labels := ["mac"]
  repoId := 1

/-- Every body is the job's. A line of a listing that begins with `y` names
the VM of 43, one with `d` a VM nobody manages, and any other the job's. -/
def sampleCodec : Codec where
  hmacSha256 _ _ := .replicate 32 0
  decodeEnvelope _ := .ok sampleEnvelope
  decodeJob _ := .ok sampleJob
  encodeEnvelope _ := []
  encodeJob _ := []
  decodeInstance
    | 121 :: _ => some ⟨vmName 43, some "/vm", none⟩
    | 100 :: _ => some ⟨"default", some "/vm", none⟩
    | _ => some ⟨vmName 42, some "/vm", none⟩
  debugStr s := s

def sampleConfig : Config where
  codec := sampleCodec
  order := ⟨id, fun _ => .refl _⟩
  pid := 1
  webhookSecret := []
  allowedRepos := ["o/r"]
  runnerLabel := "mac"
  runnerLabels := ["mac"]
  maxConcurrency := 2
  jobMaxRuntimeSecs := 3600
  apiTimeoutSecs := 10
  gcIntervalSecs := 60
  reconcileIntervalSecs := 60
  dispatchDeadlineSecs := 60
  dispatchPollSecs := 5
  archiveRetentionSecs := 0
  serialLogRetentionSecs := 0
  jobCompletionCheck := true
  reconcileEnabled := true

/-! ## States -/

/-- A world with these files, at time `now`, and nothing running. -/
def World.sample (files : List (Path × Node)) (now : ℕ) : World where
  fs := files.foldl (fun s f => s.create f.1 f.2) ⟨Files.Tree.empty, now, fun _ => none⟩
  sched := ⟨sampleConfig.maxConcurrency, [], false, none⟩
  lima := ⟨[], 0, ""⟩
  hub := .empty

/-! ## Answers -/

/-- What the outside answers where it has a say. -/
structure Answers where
  fs : Files.Oracle String := ⟨false, 0, none⟩
  sched : Sched.Oracle := ⟨"42.job", 0⟩
  lima : Lima.Oracle := ⟨.ok ⟨true, ""⟩, true, false, [], "", some "/vm", none⟩
  hub : Hub.Oracle := ⟨none, true, "", [], none, none, []⟩

def Answers.oracle (q : Answers) : (o : Op) → Oracle o
  | .fs _ => q.fs
  | .sched _ => q.sched
  | .lima _ => q.lima
  | .hub _ => q.hub

/-- Nothing fails, no time passes, and directories are read in order. -/
def sampleExec (o : Op) (w : World) : Option (Resp o × World) :=
  step sampleCodec 0 o (Answers.oracle
    { fs := ⟨false, 0, (w.fs.scan 0).bind fun sc => sc.offered.head?⟩ } o) (w.later 0)

theorem hostStep_of_exec (o : Op) (w : World) (r : Resp o) (w' : World)
    (h : sampleExec o w = some (r, w')) : hostStep sampleCodec Faultless o w r w' := by
  refine ⟨_, 0, ?_, h⟩
  cases o <;> trivial

end GhaConsumer

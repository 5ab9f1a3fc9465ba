import GhaConsumer.Daemon.Machine
import GhaConsumer.Gc.Reading
import GhaConsumer.Spool.Calls

/-!
# The daemon — which calls each task makes

The kinds of calls of the worker, the dispatcher, the reconciler and the
GC, whatever the answers: what the other tasks may count on without
looking into a body.
-/

namespace GhaConsumer

open Interleave Prog

/-! ## Kinds of calls -/

/-- The calls of a worker but for its finalize: VMs, GitHub, and files of
its own in the state directory; it mints its own runner. -/
def Op.tends (event : WorkflowJob) : Op → Prop
  | .lima _ | .fs .now | .fs (.writeAll ..) | .fs (.syncAll _) => True
  | .fs (.removeFile p) | .fs (.createNew p) => p.dir = .instances ∨ p.dir = .logs
  | .hub (.generateJitConfig _ _ name _) => name = vmNameForEvent event
  | .hub _ => True
  | _ => False

/-- The calls of a worker to what it runs, and to its clock. -/
def Op.minds : Op → Prop
  | .lima _ | .fs .now | .hub (.runnerStatus ..) => True
  | _ => False

/-- The calls of a worker. -/
def Op.works (cur : String) (event : WorkflowJob) (o : Op) : Prop :=
  o.tends event ∨ o.finalizes cur

/-- The calls that read the directory `cur/`. -/
def Op.lists : Op → Prop
  | .fs (.openDir _) | .fs .nextEntry | .fs (.fileType _) => True
  | _ => False

/-- The calls of the GC: it finalizes any claim, and removes files in the
archives and the state directory. -/
def Op.sweeps : Op → Prop
  | .lima _ | .hub (.listRunners ..) | .hub (.deleteRunner ..) | .sched (.log _) | .sched .sleep
  | .fs (.lstat _) => True
  | .fs (.removeFile p) => p.dir ≠ .cur ∧ p.dir ≠ .new
  | o => o.lists ∨ ∃ name, o.finalizes name

/-- The calls of a prune of a directory. -/
def Op.prunes (dir : Dir) : Op → Prop
  | .fs (.lstat _) | .fs .now | .sched .lockArchive | .sched .unlockArchive => True
  | .fs (.removeFile p) => p.dir = dir
  | o => o.lists

/-! ## Lima -/

namespace Lima

variable {φ : GhaConsumer.Op → Prop} (hφ : ∀ o, φ (.lima o))
include hφ

/-- Lima is asked, and nothing else. -/
theorem startVm_only (name : String) : (startVm name).Only φ := by
  refine .step (hφ _) fun r => ?_
  split
  · trivial
  · split <;> trivial

theorem copyJit_only (name : String) : (copyJit name).Only φ := by
  refine .step (hφ _) fun r => ?_
  split
  · trivial
  · split <;> trivial

theorem stopVm_only (name : String) : (stopVm name).Only φ := by
  refine .step (hφ _) fun r => ?_
  split <;> trivial

theorem listInstances_only (C : Codec) : (listInstances C).Only φ := by
  refine .step (hφ _) fun r => ?_
  split
  · trivial
  · split <;> trivial

theorem deleteVm_only (C : Codec) (name : String) : (deleteVm C name).Only φ := by
  refine .step (hφ _) fun r => ?_
  split
  · trivial
  · refine ((listInstances_only hφ C).bind fun r => ?_).bind fun r => ?_
    · split <;> trivial
    · split <;> trivial

theorem tailOf_only (dir : String) (fnames : List String) : (tailOf dir fnames).Only φ := by
  induction fnames with
  | nil => trivial
  | cons fname rest ih =>
    refine .step (hφ _) fun r => ?_
    split
    · trivial
    · exact ih

theorem serialLogTail_only (C : Codec) (name : String) : (serialLogTail C name).Only φ := by
  refine (listInstances_only hφ C).bind fun r => ?_
  split
  · trivial
  · split
    · exact (tailOf_only hφ _ _).bind fun _ => trivial
    · trivial

end Lima

/-! ## The worker -/

section Worker

variable {cfg : Config} {fuel : ℕ} {cur owner repo vm : String} {event : WorkflowJob}

/-- A worker's own file is replaced, whatever was there. -/
theorem replacePrivateFile_only {what : String} {p : Path} {contents : Files.Bytes}
    (hp : p.dir = .instances ∨ p.dir = .logs) :
    (replacePrivateFile what p contents).Only (Op.tends event) := by
  refine .step hp fun r => ?_
  split
  · trivial
  · trivial
  · refine (writePrivateFile_only hp (fun _ => trivial) fun _ => trivial).bind fun r => ?_
    split <;> trivial

theorem Op.minds.tends {o : Op} (h : o.minds) (event : WorkflowJob) : o.tends event := by
  unfold Op.minds at h
  split at h <;> trivial

section Minds

variable {φ : Op → Prop} (hφ : ∀ o : Op, o.minds → φ o)
include hφ

theorem observeRunner_only {id : ℕ} : (observeRunner owner repo id).Only φ := by
  refine .step (hφ _ trivial) fun r => ?_
  split
  · split
    · trivial
    · split <;> trivial
  · trivial
  · trivial

/-- A watch is of the job's runner and the clock. -/
theorem watchDispatch_only {id start deadline : ℕ} {pending : Bool} :
    (watchDispatch owner repo id start deadline fuel pending).Only φ := by
  have hwait : φ (.lima .shellWait) := hφ _ trivial
  induction fuel generalizing pending with
  | zero => exact .step hwait fun _ => trivial
  | succ fuel ih =>
    refine .step (hφ _ trivial) fun r => ?_
    split
    · trivial
    · refine (observeRunner_only hφ).bind fun obs => .step (hφ _ trivial) fun r => ?_
      split
      · trivial
      · split
        · exact .step hwait fun _ => trivial
        · refine .step (hφ _ trivial) fun now => ?_
          split
          · trivial
          · exact ih
          · exact ih

theorem runAgent_only {id : ℕ} : (runAgent cfg fuel vm owner repo id).Only φ := by
  refine .step (hφ _ trivial) fun r => ?_
  split
  · trivial
  · split
    · exact .step (hφ _ trivial) fun _ => trivial
    · exact .step (hφ _ trivial) fun _ => watchDispatch_only hφ

end Minds

theorem runInVm_only {jit : JitConfigResp} :
    (runInVm cfg fuel event vm jit owner repo).Only (Op.tends event) := by
  refine (replacePrivateFile_only (.inl rfl)).bind fun r => ?_
  split
  · trivial
  · refine (Lima.startVm_only (fun _ => trivial) _).bind fun r => ?_
    split
    · trivial
    · refine (Lima.copyJit_only (fun _ => trivial) _).bind fun r => ?_
      split
      · trivial
      · exact (runAgent_only fun _ ho => ho.tends event).bind fun _ => trivial

/-- The console's tail goes to a file of the worker's own. -/
theorem captureOomEvidence_only : (captureOomEvidence cfg vm).Only (Op.tends event) := by
  refine (Lima.serialLogTail_only (fun _ => trivial) _ _).bind fun r => ?_
  split
  · split
    · exact (replacePrivateFile_only (.inr rfl)).bind fun _ => trivial
    · trivial
  · trivial

theorem teardown_only {id : ℕ} : (teardown cfg vm owner repo id).Only (Op.tends event) := by
  refine (Lima.stopVm_only (fun _ => trivial) _).bind fun _ => ?_
  refine (Lima.deleteVm_only (fun _ => trivial) _ _).bind fun _ => ?_
  exact .step (.inl rfl) fun _ => .step trivial fun _ => trivial

/-- A worker tends its job from the lease to the teardown. -/
theorem runJob_only : (runJob cfg fuel event).Only (Op.tends event) := by
  unfold runJob
  split
  · trivial
  · refine .step rfl fun r => ?_
    split
    · trivial
    · exact runInVm_only.bind fun _ => captureOomEvidence_only.bind fun _ =>
        teardown_only.bind fun _ => trivial

theorem completionCheck_only {φ : Op → Prop} (hφ : ∀ owner repo id, φ (.hub (.jobStatus owner repo id))) :
    (completionCheck cfg event).Only φ := by
  unfold completionCheck completionActionViaApi
  split
  · split
    · trivial
    · refine .step (hφ _ _ _) fun r => ?_
      split <;> trivial
  · trivial

/-- A worker tends its job and finalizes its claim. -/
theorem worker_only : (worker cfg fuel cur event).Only (Op.works cur event) := by
  refine (runJob_only.mono fun _ ho => .inl ho).bind fun r => ?_
  unfold finalizeJob
  split
  · exact (completionCheck_only fun _ _ _ => .inl trivial).bind fun _ =>
      ((finalizeDone_only cur).mono fun _ ho => .inr ho).bind fun _ => trivial
  · exact ((finalizeError_only cur _).mono fun _ ho => .inr ho).bind fun _ => trivial

end Worker

/-! ## The dispatcher -/

theorem acquirePermit_only {φ : Op → Prop} (h₁ : φ (.sched .waitUnpaused))
    (h₂ : φ (.sched .acquire)) (h₃ : φ (.sched .isPaused)) (h₄ : φ (.sched .release)) :
    acquirePermit.Only φ := by
  refine .step h₁ fun _ => .step h₂ fun _ => .step h₃ fun paused => ?_
  cases paused
  · trivial
  · exact .step h₄ fun _ => trivial

/-! ## The GC -/

section Collector

variable {cfg : Config} {fuel : ℕ}

/-- A loop over a directory calls what is done with an entry. -/
theorem forEntries_only {φ : Op → Prop} {f : String → Prog Resp Unit} (hnext : φ (.fs .nextEntry))
    (hf : ∀ name, (f name).Only φ) : (forEntries fuel f).Only φ := by
  have hop : (fs .nextEntry).Only φ := only_op hnext
  exact (hop.whileSome (fun _ ent => hf ent.name) fuel ()).bind fun _ => trivial

/-- A prune is part of a sweep, of any directory but the queue's. -/
theorem Op.prunes.sweeps {o : Op} {dir : Dir} (hdir : dir ≠ .cur ∧ dir ≠ .new) (h : o.prunes dir) :
    o.sweeps := by
  cases o with
  | fs o =>
    cases o with
    | lstat => trivial
    | now => exact .inr ⟨"", trivial⟩
    | removeFile p =>
      obtain rfl : p.dir = dir := h
      exact hdir
    | _ => exact .inl h
  | sched o =>
    cases o with
    | lockArchive | unlockArchive => exact .inr ⟨"", trivial⟩
    | _ => exact h.elim
  | lima o | hub o => exact h.elim

theorem pruneArchiveEntry_only (dir : Dir) (retentionSecs now : ℕ) (name : String) :
    (pruneArchiveEntry dir retentionSecs now name).Only (Op.prunes dir) := by
  have hunlock : (sched .unlockArchive).Only (Op.prunes dir) := only_op trivial
  refine .step trivial fun r => ?_
  split
  · trivial
  · split
    · trivial
    · refine .step trivial fun _ => .step trivial fun r => ?_
      split
      · exact hunlock
      · split
        · exact hunlock
        · exact .step rfl fun _ => hunlock

theorem pruneArchiveDir_only (dir : Dir) (retentionSecs : ℕ) :
    (pruneArchiveDir fuel dir retentionSecs).Only (Op.prunes dir) := by
  refine .step trivial fun r => ?_
  split
  · trivial
  · exact .step trivial fun now =>
      forEntries_only trivial fun name => pruneArchiveEntry_only dir retentionSecs now name

/-- Both archives are pruned, each by itself. -/
theorem pruneOldArchives_only {φ : Op → Prop} (hdone : ∀ o, Op.prunes .done o → φ o)
    (herror : ∀ o, Op.prunes .error o → φ o) (retentionSecs : ℕ) :
    (pruneOldArchives fuel retentionSecs).Only φ := by
  unfold pruneOldArchives
  split
  · trivial
  · exact ((pruneArchiveDir_only .done _).mono hdone).bind fun _ =>
      (pruneArchiveDir_only .error _).mono herror

theorem pruneSerialLogs_only (retentionSecs : ℕ) :
    (pruneSerialLogs fuel retentionSecs).Only (Op.prunes .logs) := by
  unfold pruneSerialLogs
  split
  · trivial
  · refine .step trivial fun r => ?_
    split
    · trivial
    · refine .step trivial fun now => forEntries_only trivial fun name => ?_
      unfold pruneSerialLog
      split
      · trivial
      · refine .step trivial fun r => ?_
        split
        · trivial
        · split
          · trivial
          · exact .step rfl fun _ => trivial

theorem pruneStaleJitBlobs_only (maxAgeSecs : ℕ) :
    (pruneStaleJitBlobs fuel maxAgeSecs).Only (Op.prunes .instances) := by
  refine .step trivial fun r => ?_
  split
  · trivial
  · refine forEntries_only trivial fun name => ?_
    unfold pruneJitBlob
    split
    · trivial
    · refine .step trivial fun r => ?_
      split
      · trivial
      · refine .step trivial fun now => ?_
        split
        · trivial
        · refine .step trivial fun r => ?_
          split
          · trivial
          · refine .step trivial fun later => ?_
            split
            · trivial
            · exact .step rfl fun _ => trivial

theorem Op.expires.sweeps {o : Op} (h : o.expires) : o.sweeps := by
  rcases h with ⟨name, ho⟩ | rfl | rfl | ⟨name, rfl⟩
  · cases o with
    | fs o =>
      cases o with
      | removeFile p => exact ho.elim
      | lstat p => trivial
      | _ => exact .inr ⟨name, ho⟩
    | sched o =>
      cases o with
      | log | sleep => trivial
      | _ => exact .inr ⟨name, ho⟩
    | lima o => trivial
    | hub o => exact ho.elim
  · exact .inl trivial
  · exact .inl trivial
  · trivial

theorem Op.prunes.files {o : Op} {dir : Dir} (h : o.prunes dir) : o.files := by
  cases o with
  | fs => trivial
  | sched o =>
    cases o with
    | lockArchive | unlockArchive => trivial
    | _ => exact h.elim
  | lima | hub => exact h.elim

/-- The functions that finalize, stage, expire and prune. -/
def Call.ofFiles : Call → Prop
  | .finalizeError .. | .writeSyntheticClaim .. | .expireStaleCur _ | .pruneOldArchives _
  | .pruneSerialLogs _ | .pruneStaleJitBlobs _ => True
  | _ => False

/-- They ask Lima and GitHub nothing. -/
theorem impl_files {c : Call} (h : c.ofFiles) : (c.impl cfg fuel).Only Op.files := by
  cases c with
  | finalizeError cur reason => exact (finalizeError_only cur reason).mono fun _ ho => ho.files
  | writeSyntheticClaim job fullName =>
    exact (writeSyntheticClaim_only cfg job fullName).mono fun _ ho => ho.files
  | expireStaleCur maxAgeSecs => exact (expireStaleCur_only fuel maxAgeSecs).mono fun _ ho => ho.files
  | pruneOldArchives retentionSecs =>
    exact pruneOldArchives_only (fun _ ho => ho.files) (fun _ ho => ho.files) retentionSecs
  | pruneSerialLogs retentionSecs =>
    exact (pruneSerialLogs_only retentionSecs).mono fun _ ho => ho.files
  | pruneStaleJitBlobs maxAgeSecs =>
    exact (pruneStaleJitBlobs_only maxAgeSecs).mono fun _ ho => ho.files
  | host | stop | delete | listInstances => exact h.elim

/-- The calls of a sweep, of functions. -/
def Call.sweeps : Call → Prop
  | .host o => o.sweeps
  | .writeSyntheticClaim .. => False
  | _ => True

/-- What a sweep calls, carried out. -/
theorem impl_only {c : Call} (h : c.sweeps) : (c.impl cfg fuel).Only Op.sweeps := by
  have hlima : ∀ o, Op.sweeps (.lima o) := fun _ => trivial
  cases c with
  | host o => exact only_op h
  | finalizeError cur reason =>
    exact (finalizeError_only cur reason).mono fun o ho => Op.expires.sweeps (.inl ⟨cur, ho⟩)
  | writeSyntheticClaim job fullName => exact h.elim
  | expireStaleCur maxAgeSecs => exact (expireStaleCur_only fuel maxAgeSecs).mono fun _ => Op.expires.sweeps
  | pruneOldArchives retentionSecs =>
    exact pruneOldArchives_only (fun _ => Op.prunes.sweeps (by decide))
      (fun _ => Op.prunes.sweeps (by decide)) retentionSecs
  | pruneSerialLogs retentionSecs =>
    exact (pruneSerialLogs_only retentionSecs).mono fun _ => Op.prunes.sweeps (by decide)
  | pruneStaleJitBlobs maxAgeSecs =>
    exact (pruneStaleJitBlobs_only maxAgeSecs).mono fun _ => Op.prunes.sweeps (by decide)
  | stop vm => exact Lima.stopVm_only hlima vm
  | delete vm => exact Lima.deleteVm_only hlima cfg.codec vm
  | listInstances => exact Lima.listInstances_only hlima cfg.codec

/-- The calls of the sweep's two passes, of functions: what they ask the
host themselves removes no file. -/
def Call.reaps : Call → Prop
  | .host (.fs o) => Op.lists (.fs o)
  | .host o => o.sweeps
  | .finalizeError .. | .stop _ | .delete _ | .listInstances => True
  | _ => False

theorem Call.reaps.sweeps {c : Call} (h : c.reaps) : c.sweeps := by
  cases c with
  | host o =>
    cases o with
    | fs o =>
      cases o with
      | openDir | nextEntry | fileType => exact .inl h
      | _ => exact h.elim
    | lima o => trivial
    | sched o | hub o => exact h
  | finalizeError | stop | delete | listInstances => trivial
  | _ => exact h.elim

theorem Call.ReadsDir.reaps {c : Call} (h : c.ReadsDir) : c.reaps := by
  cases c with
  | host o =>
    cases o with
    | fs o =>
      cases o with
      | openDir | nextEntry | fileType => trivial
      | _ => exact h.elim
    | _ => exact h.elim
  | _ => exact h.elim

/-- The calls that ask what VMs there are. -/
def Call.inspects : Call → Prop
  | .listInstances | .host (.lima (.readYaml _)) => True
  | _ => False

theorem Call.inspects.reaps {c : Call} (h : c.inspects) : c.reaps := by
  unfold Call.inspects at h
  split at h
  · trivial
  · trivial
  · exact h.elim

/-- Every VM is asked for its image at most. -/
theorem managedOf_only (live : Option ClaimMap) (rows : List (String × Option String)) :
    (managedOf live rows).Only Call.inspects := by
  induction rows with
  | nil => trivial
  | cons row rest ih =>
    obtain ⟨name, dir⟩ := row
    unfold managedOf
    split
    · exact ih
    · have himage : (imageIfClaimed live name dir).Only Call.inspects := by
        unfold imageIfClaimed
        split
        · cases dir with
          | none => trivial
          | some dir =>
            refine .step trivial fun r => ?_
            split <;> trivial
        · trivial
      exact himage.bind fun _ => ih.bind fun _ => trivial

theorem managedVms_only (live : Option ClaimMap) : (managedVms live).Only Call.inspects := by
  refine .step trivial fun r => ?_
  split
  · trivial
  · exact managedOf_only live _

theorem reapVms_only (currentLocation : String) (reaped : List String) (plan : List VmReap) :
    (reapVms currentLocation reaped plan).Only Call.reaps := by
  induction plan generalizing reaped with
  | nil => trivial
  | cons reap rest ih =>
    have hreap : (reapVm currentLocation reaped reap).Only Call.reaps := by
      cases reap with
      | orphan name => exact .step trivial fun _ => .step trivial fun _ => .step trivial fun _ => trivial
      | staleImage name cur vmLocation =>
        refine .step trivial fun _ => .step trivial fun _ => .step trivial fun r => ?_
        split
        · trivial
        · exact .step trivial fun _ => trivial
    exact hreap.bind fun reaped => ih reaped

/-- The pass over the VMs reads, plans and reaps. -/
theorem vmPass_only : (vmPass fuel).Only Call.reaps := by
  refine (liveVmMapFromCur_only fun _ hc => hc.reaps).bind fun claims => ?_
  have htemplate : currentTemplateImage.Only Call.reaps := by
    refine .step trivial fun r => ?_
    split <;> trivial
  refine htemplate.bind fun current => ?_
  have hmanaged : (managedVms claims.toOption).Only Call.reaps :=
    (managedVms_only _).mono fun _ => Call.inspects.reaps
  exact hmanaged.bind fun managed => reapVms_only _ _ _

theorem planRunnerReapsFromCur_only (runners : List Runner) (reaped : List String) :
    (planRunnerReapsFromCur fuel runners reaped).Only Call.reaps :=
  (liveVmMapFromCur_only fun _ hc => hc.reaps).bind fun _ => trivial

/-- And so does the one over the runners. -/
theorem runnerPass_only (reaped repos : List String) :
    (runnerPass fuel reaped repos).Only Call.reaps := by
  induction repos with
  | nil => trivial
  | cons repoFull rest ih =>
    unfold runnerPass
    split
    · exact ih
    · rename_i owner repo _
      refine .step trivial fun r => ?_
      split
      · exact ih
      · refine (planRunnerReapsFromCur_only _ reaped).bind fun reaps => ?_
        have hdelete : (deleteRunners owner repo reaps).Only Call.reaps := by
          induction reaps with
          | nil => trivial
          | cons r rest ih => exact .step trivial fun _ => .step trivial fun _ => ih
        exact hdelete.bind fun _ => ih

/-- A sweep makes the calls of a sweep. -/
theorem sweepInner_only : (sweepInner cfg fuel).Only Call.sweeps := by
  refine .step trivial fun r => ?_
  split
  · trivial
  · exact .step trivial fun _ => .step trivial fun _ => .step trivial fun _ =>
      (vmPass_only.mono fun _ => Call.reaps.sweeps).bind fun reaped =>
        ((runnerPass_only reaped _).mono fun _ => Call.reaps.sweeps).bind fun _ => trivial

end Collector

/-! ## The reconciler -/

section Reconciler

open Trace

variable {cfg : Config} {fuel : ℕ} {good : Interleave.History Resp → Event Resp → Prop}
variable {B : Interleave.History Resp → Prop}

/-- The calls of the reconciler between its mints. -/
def Op.asks : Op → Prop
  | .sched .isPaused | .hub _ => True
  | _ => False

/-- What is true between mints, and each mint leaves true, is true after
a queue. -/
theorem mintQueued_keeps
    (hasks : ∀ (o : Op) (r : Resp o) τ, o.asks → B τ → good τ ⟨o, r⟩ ∧ B (⟨o, r⟩ :: τ))
    (hmint : ∀ repoFull job,
      Triple good B ((mintJob repoFull job).lower (Call.impl cfg fuel)) fun _ => B)
    (repoFull : String) (live idle : List String) (queue : List JobStatus) :
    Triple good B ((mintQueued cfg repoFull live idle queue).lower (Call.impl cfg fuel))
      fun _ => B := by
  induction queue with
  | nil => exact Triple.ret fun _ hτ => hτ
  | cons job rest ih =>
    refine Triple.step (B := fun _ => B)
      (fun τ r hτ => hasks (.sched .isPaused) r τ trivial hτ) fun paused => ?_
    cases paused with
    | true => exact Triple.ret fun _ hτ => hτ
    | false =>
      show Triple good B (Prog.lower (Call.impl cfg fuel)
        (mintNext cfg repoFull live idle job (mintQueued cfg repoFull live idle rest))) fun _ => B
      unfold mintNext
      split
      · exact ih
      · split
        · exact ih
        · refine Triple.lowerBind (hmint repoFull job) fun more => ?_
          cases more with
          | true => exact ih
          | false => exact Triple.ret fun _ hτ => hτ

/-- And after every repository. -/
theorem reconcileRepos_keeps
    (hasks : ∀ (o : Op) (r : Resp o) τ, o.asks → B τ → good τ ⟨o, r⟩ ∧ B (⟨o, r⟩ :: τ))
    (hmint : ∀ repoFull job,
      Triple good B ((mintJob repoFull job).lower (Call.impl cfg fuel)) fun _ => B)
    (live repos : List String) :
    Triple good B ((reconcileRepos cfg live repos).lower (Call.impl cfg fuel)) fun _ => B := by
  induction repos with
  | nil => exact Triple.ret fun _ hτ => hτ
  | cons repoFull rest ih =>
    refine Triple.step (B := fun _ => B)
      (fun τ r hτ => hasks (.sched .isPaused) r τ trivial hτ) fun paused => ?_
    cases paused with
    | true => exact Triple.ret fun _ hτ => hτ
    | false =>
      show Triple good B (Prog.lower (Call.impl cfg fuel)
        (reconcileNext cfg live repoFull (reconcileRepos cfg live rest))) fun _ => B
      unfold reconcileNext
      split
      · exact ih
      · rename_i owner repo _
        refine Triple.step (B := fun _ => B) (fun τ r hτ =>
          hasks (.hub (.listRunners owner repo vmNamePrefix)) r τ trivial hτ) fun runners => ?_
        rcases runners with e | runners
        · exact ih
        · refine Triple.step (B := fun _ => B) (fun τ r hτ =>
            hasks (.hub (.listQueuedJobs owner repo)) r τ trivial hτ) fun queued => ?_
          rcases queued with e | queued
          · exact ih
          · show Triple good B (Prog.lower (Call.impl cfg fuel)
              (mintQueued cfg repoFull live (idleRunners runners) queued >>= fun more =>
                if more then reconcileRepos cfg live rest else pure ())) fun _ => B
            refine Triple.lowerBind (mintQueued_keeps hasks hmint repoFull live _ _) fun more => ?_
            cases more with
            | true => exact ih
            | false => exact Triple.ret fun _ hτ => hτ

end Reconciler

end GhaConsumer

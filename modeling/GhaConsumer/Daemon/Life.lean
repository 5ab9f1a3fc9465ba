import GhaConsumer.Daemon.Ownership
import GhaConsumer.Interleave.Monitor

/-!
# The daemon — the life of a worker

What a worker is for, said without its code: it leases a runner from
GitHub, stores the runner's blob, boots a VM, hands it the blob and runs
the agent in it; whatever goes wrong, it gives all of it up again before
it archives its claim. `Phase` is where a worker is in that life and
`Step` what it may do there; a worker of the source does nothing else from
its start on (`Follows`), in whatever order the threads move. So a claim
covers its runner and its VM for as long as they last: no worker has begun
to archive its claim, or ended, with a runner it has not given up
(`life_of_worker`).
-/

namespace GhaConsumer

namespace Life

open Interleave Daemon
open Files (Bytes Ino)

/-! ## The abstract worker -/

/-- A runner leased for a VM. -/
structure Lease where
  vm : String
  owner : String
  repo : String
  jit : JitConfigResp

/-- What the VM is to be handed. -/
def Lease.blob (l : Lease) : Bytes := l.jit.encodedJitConfig.toUTF8.toList

/-- It is leased for the event's job. -/
structure Lease.For (l : Lease) (event : WorkflowJob) : Prop where
  vm : l.vm = vmNameForEvent event
  repo : splitFullName event.repository.fullName = .ok (l.owner, l.repo)

/-- Where a worker is in its life. -/
inductive Phase where
  /-- Not a worker. -/
  | other
  /-- Has asked for nothing yet. -/
  | idle
  | minted (l : Lease)
  /-- The blob's file is there, and empty. -/
  | opened (l : Lease) (file : Ino)
  | written (l : Lease) (file : Ino)
  /-- The blob is on disk. -/
  | stored (l : Lease)
  | booted (l : Lease)
  /-- The VM has the blob. -/
  | seeded (l : Lease)
  | running (l : Lease)
  /-- Whatever came of it, only giving up is left. -/
  | leaving (l : Lease)
  | stopped (l : Lease)
  | destroyed (l : Lease)
  | wiped (l : Lease)
  /-- Holds nothing any more. -/
  | settled
  /-- The claim is being archived. -/
  | closing
  | closed

/-- The calls that watch over a running agent. -/
def Lease.minds (l : Lease) : Op → Prop
  | .lima .shellOrTick | .lima .shellPoll | .lima .shellWait | .fs .now => True
  | .hub (.runnerStatus owner repo id) => owner = l.owner ∧ repo = l.repo ∧ id = l.jit.runnerId
  | _ => False

/-- The calls that save the console's tail. -/
def Lease.saves (l : Lease) : Op → Prop
  | .lima .list | .lima (.readTail ..) | .fs (.writeAll ..) | .fs (.syncAll _) => True
  | .fs (.removeFile p) | .fs (.createNew p) => p = serialPath l.vm
  | _ => False

/-- Where a worker may turn to giving up: at the start, once the agent
has run, or where a stage has failed. -/
inductive Phase.Tearable (l : Lease) : Phase → Prop
  | minted : Tearable l (.minted l)
  | running : Tearable l (.running l)
  | leaving : Tearable l (.leaving l)

/-- Where a worker may archive its claim: with nothing held. -/
inductive Phase.Free : Phase → Prop
  | idle : Free .idle
  | settled : Free .settled

/-- **What a worker may do.** -/
inductive Step (cur : String) (event : WorkflowJob) : Phase → Event Resp → Phase → Prop
  | mint {owner repo name : String} {labels : List String} {jit : JitConfigResp}
      (h : Lease.For ⟨name, owner, repo, jit⟩ event) :
      Step cur event .idle ⟨.hub (.generateJitConfig owner repo name labels), .ok jit⟩
        (.minted ⟨name, owner, repo, jit⟩)
  | unminted {owner repo name e : String} {labels : List String} (hname : name = vmNameForEvent event)
      (h : splitFullName event.repository.fullName = .ok (owner, repo)) :
      Step cur event .idle ⟨.hub (.generateJitConfig owner repo name labels), .error e⟩ .settled
  /-- A blob left behind is in the way. -/
  | unlink {l : Lease} {r : Resp (.fs (.removeFile (jitPath l.vm)))} :
      Step cur event (.minted l) ⟨.fs (.removeFile (jitPath l.vm)), r⟩ (.minted l)
  | create {l : Lease} {file : Ino} :
      Step cur event (.minted l) ⟨.fs (.createNew (jitPath l.vm)), .ok file⟩ (.opened l file)
  | uncreated {l : Lease} {e : Files.Errno} :
      Step cur event (.minted l) ⟨.fs (.createNew (jitPath l.vm)), .error e⟩ (.leaving l)
  | write {l : Lease} {file : Ino} :
      Step cur event (.opened l file) ⟨.fs (.writeAll file l.blob), .ok ()⟩ (.written l file)
  | unwritten {l : Lease} {file : Ino} {e : Files.Errno} :
      Step cur event (.opened l file) ⟨.fs (.writeAll file l.blob), .error e⟩ (.leaving l)
  | sync {l : Lease} {file : Ino} :
      Step cur event (.written l file) ⟨.fs (.syncAll file), .ok ()⟩ (.stored l)
  | unsynced {l : Lease} {file : Ino} {e : Files.Errno} :
      Step cur event (.written l file) ⟨.fs (.syncAll file), .error e⟩ (.leaving l)
  | boot {l : Lease} {r : Lima.Outcome} (h : Lima.exitedOk r = true) (hl : l.For event) :
      Step cur event (.stored l) ⟨.lima (.start l.vm), r⟩ (.booted l)
  | unbooted {l : Lease} {r : Lima.Outcome} (h : Lima.exitedOk r = false) (hl : l.For event) :
      Step cur event (.stored l) ⟨.lima (.start l.vm), r⟩ (.leaving l)
  | seed {l : Lease} {r : Lima.Outcome} (h : Lima.exitedOk r = true) :
      Step cur event (.booted l) ⟨.lima (.copyInto l.vm), r⟩ (.seeded l)
  | unseeded {l : Lease} {r : Lima.Outcome} (h : Lima.exitedOk r = false) :
      Step cur event (.booted l) ⟨.lima (.copyInto l.vm), r⟩ (.leaving l)
  | spawn {l : Lease} :
      Step cur event (.seeded l) ⟨.lima (.shellStart l.vm), .ok ()⟩ (.running l)
  | unspawned {l : Lease} {e : String} :
      Step cur event (.seeded l) ⟨.lima (.shellStart l.vm), .error e⟩ (.leaving l)
  | mind {l : Lease} {o : Op} {r : Resp o} (h : l.minds o) (hl : l.For event) :
      Step cur event (.running l) ⟨o, r⟩ (.running l)
  /-- The listing that locates the console. -/
  | look {l : Lease} {s : Phase} {r : Resp (.lima .list)} (h : s.Tearable l) :
      Step cur event s ⟨.lima .list, r⟩ (.leaving l)
  | save {l : Lease} {o : Op} {r : Resp o} (h : l.saves o) :
      Step cur event (.leaving l) ⟨o, r⟩ (.leaving l)
  | stop {l : Lease} {r : Lima.Outcome} (h : l.For event) :
      Step cur event (.leaving l) ⟨.lima (.stop l.vm), r⟩ (.stopped l)
  | delete {l : Lease} {r : Lima.Outcome} (h : l.For event) :
      Step cur event (.stopped l) ⟨.lima (.delete l.vm), r⟩ (.destroyed l)
  | recheck {l : Lease} {r : Resp (.lima .list)} :
      Step cur event (.destroyed l) ⟨.lima .list, r⟩ (.destroyed l)
  | wipe {l : Lease} {r : Resp (.fs (.removeFile (jitPath l.vm)))} :
      Step cur event (.destroyed l) ⟨.fs (.removeFile (jitPath l.vm)), r⟩ (.wiped l)
  | giveUp {l : Lease} {r : Except String Unit} (h : l.For event) :
      Step cur event (.wiped l) ⟨.hub (.deleteRunner l.owner l.repo l.jit.runnerId), r⟩ .settled
  /-- The completion check. -/
  | ask {s : Phase} {owner repo : String} {id : JobId}
      {r : Resp (.hub (.jobStatus owner repo id))} (h : s.Free)
      (hsplit : splitOnce event.repository.fullName = some (owner, repo)) :
      Step cur event s ⟨.hub (.jobStatus owner repo id), r⟩ s
  | lock {s : Phase} {r : Unit} (h : s.Free) :
      Step cur event s ⟨.sched .lockArchive, r⟩ .closing
  | archive {o : Files.Op Dir String} {r : Files.Resp o} (h : Op.finalizes cur (.fs o)) :
      Step cur event .closing ⟨.fs o, r⟩ .closing
  | unlock {r : Unit} : Step cur event .closing ⟨.sched .unlockArchive, r⟩ .closed

/-- The calls of a worker's life so far, the latest first, and where they
have led. -/
inductive Follows (cur : String) (event : WorkflowJob) : Interleave.History Resp → Phase → Prop
  | idle : Follows cur event [] .idle
  | step {ρ : Interleave.History Resp} {s s' : Phase} {e : Event Resp}
      (h : Follows cur event ρ s) (hs : Step cur event s e s') : Follows cur event (e :: ρ) s'

/-- The life of a worker, as a monitor. -/
def monitor : Monitor Resp Task Phase where
  init := .idle
  next
    | .work cur event, s, e, s' => Step cur event s e s'
    | _, _, _, s' => s' = .other
  pre
    | .work .., s => s = .idle
    | _, _ => True
  fin
    | .work .., s => s = .closed
    | _, _ => True

/-! ## The worker keeps to it -/

section Worker

variable {cfg : Config} {fuel : ℕ} {cur : String} {event : WorkflowJob} {l : Lease}

/-- Each stage is done, or leaves only giving up. -/
def Stage (done : Phase) (l : Lease) (r : Except String Unit) (s : Phase) : Prop :=
  (r = .ok () ∧ s = done) ∨ ((∃ e, r = .error e) ∧ s.Tearable l)

theorem writePrivateFile_life :
    monitor.Triple (.work cur event) (· = .minted l) (writePrivateFile (jitPath l.vm) l.blob)
      fun r s => (r = .ok () ∧ s = .stored l) ∨ ((∃ e, r = .error e) ∧ s = .leaving l) := by
  refine .step (B := fun r s => (∃ file, r = .ok file ∧ s = .opened l file) ∨
    ((∃ e, r = .error e) ∧ s = .leaving l)) ?_ fun r => ?_
  · rintro s (e | file) rfl
    · exact ⟨_, .uncreated, .inr ⟨⟨e, rfl⟩, rfl⟩⟩
    · exact ⟨_, .create, .inl ⟨file, rfl, rfl⟩⟩
  rcases r with e | file
  · exact .ret fun s hs => .inr ⟨⟨e, rfl⟩, (hs.resolve_left (by simp)).2⟩
  refine .step (B := fun r s => (r = .ok () ∧ s = .written l file) ∨
    ((∃ e, r = .error e) ∧ s = .leaving l)) ?_ fun r => ?_
  · intro s r hs
    obtain ⟨_, hfile, rfl⟩ := hs.resolve_right (by simp)
    cases hfile
    rcases r with e | ⟨⟨⟩⟩
    · exact ⟨_, .unwritten, .inr ⟨⟨e, rfl⟩, rfl⟩⟩
    · exact ⟨_, .write, .inl ⟨rfl, rfl⟩⟩
  rcases r with e | ⟨⟨⟩⟩
  · exact .ret fun s hs => .inr ⟨⟨e, rfl⟩, (hs.resolve_left (by simp)).2⟩
  refine (Monitor.Triple.step (f := .ret) ?_ fun r => .ret fun s hs => hs)
  intro s r hs
  obtain ⟨-, rfl⟩ := hs.resolve_right (by simp)
  rcases r with e | ⟨⟨⟩⟩
  · exact ⟨_, .unsynced, .inr ⟨⟨e, rfl⟩, rfl⟩⟩
  · exact ⟨_, .sync, .inl ⟨rfl, rfl⟩⟩

theorem writeJitBlob_life :
    monitor.Triple (.work cur event) (· = .minted l) (writeJitBlob l.vm l.blob)
      (Stage (.stored l) l) := by
  refine .step (B := fun _ s => s = .minted l) ?_ fun r => ?_
  · rintro s r rfl
    exact ⟨_, .unlink, rfl⟩
  split
  · exact .ret fun s hs => .inr ⟨⟨_, rfl⟩, hs ▸ .minted⟩
  · exact .ret fun s hs => .inr ⟨⟨_, rfl⟩, hs ▸ .minted⟩
  · refine writePrivateFile_life.bind fun r => ?_
    rcases r with e | ⟨⟨⟩⟩
    · exact .ret fun s hs => .inr ⟨⟨_, rfl⟩, (hs.resolve_left (by simp)).2 ▸ .leaving⟩
    · exact .ret fun s hs => .inl ⟨rfl, (hs.resolve_right (by simp)).2⟩

/-- A `limactl` command succeeded, or leaves only giving up. -/
def Ran (done : Phase) (l : Lease) (r : Lima.Outcome) (s : Phase) : Prop :=
  (Lima.exitedOk r = true ∧ s = done) ∨ (Lima.exitedOk r = false ∧ s = .leaving l)

/-- A command that ran may have failed all the same. -/
theorem ran_status {done : Phase} {status : ExitStatus} {e : String} :
    monitor.Triple (.work cur event) (Ran done l (.ok status))
      (if status.success = true then .ret (.ok ()) else .ret (.error e)) (Stage done l) := by
  have hexit : Lima.exitedOk (.ok status) = status.success := rfl
  by_cases hok : status.success = true
  · rw [if_pos hok]
    exact .ret fun s hs => .inl ⟨rfl, (hs.resolve_right (by simp [hexit, hok])).2⟩
  · rw [if_neg hok]
    exact .ret fun s hs => .inr ⟨⟨_, rfl⟩, (hs.resolve_left (by simp [hexit, hok])).2 ▸ .leaving⟩

theorem Ran.leaving {done s : Phase} {e : String} (h : Ran done l (.error e) s) : s.Tearable l :=
  (h.resolve_left (by simp [Lima.exitedOk])).2 ▸ .leaving

theorem startVm_life (hl : l.For event) :
    monitor.Triple (.work cur event) (· = .stored l) (Lima.startVm l.vm) (Stage (.booted l) l) := by
  refine .step (B := Ran (.booted l) l) ?_ fun r => ?_
  · rintro s r rfl
    cases hr : Lima.exitedOk r with
    | true => exact ⟨_, .boot hr hl, .inl ⟨hr, rfl⟩⟩
    | false => exact ⟨_, .unbooted hr hl, .inr ⟨hr, rfl⟩⟩
  rcases r with e | status
  · exact .ret fun s hs => .inr ⟨⟨e, rfl⟩, hs.leaving⟩
  · exact ran_status

theorem copyJit_life :
    monitor.Triple (.work cur event) (· = .booted l) (Lima.copyJit l.vm) (Stage (.seeded l) l) := by
  refine .step (B := Ran (.seeded l) l) ?_ fun r => ?_
  · rintro s r rfl
    cases hr : Lima.exitedOk r with
    | true => exact ⟨_, .seed hr, .inl ⟨hr, rfl⟩⟩
    | false => exact ⟨_, .unseeded hr, .inr ⟨hr, rfl⟩⟩
  rcases r with e | status
  · exact .ret fun s hs => .inr ⟨⟨e, rfl⟩, hs.leaving⟩
  · exact ran_status

/-- The watchdog asks after its own runner alone. -/
theorem watchDispatch_minds {start deadline : ℕ} {pending : Bool} :
    (watchDispatch l.owner l.repo l.jit.runnerId start deadline fuel pending).Only l.minds := by
  have hwait : l.minds (.lima .shellWait) := trivial
  induction fuel generalizing pending with
  | zero => exact .step hwait fun _ => trivial
  | succ fuel ih =>
    refine .step trivial fun r => ?_
    split
    · trivial
    · have hobserve : (observeRunner l.owner l.repo l.jit.runnerId).Only l.minds := by
        refine .step ⟨rfl, rfl, rfl⟩ fun r => ?_
        split
        · split
          · trivial
          · split <;> trivial
        · trivial
        · trivial
      refine hobserve.bind fun obs => .step trivial fun r => ?_
      split
      · trivial
      · split
        · exact .step hwait fun _ => trivial
        · refine .step trivial fun now => ?_
          split
          · trivial
          · exact ih
          · exact ih

theorem runAgent_life (hl : l.For event) :
    monitor.Triple (.work cur event) (· = .seeded l)
      (runAgent cfg fuel l.vm l.owner l.repo l.jit.runnerId) fun _ s => s.Tearable l := by
  have hminds : ∀ {p : Prog Resp RaceEnd}, p.Only l.minds →
      monitor.Triple (.work cur event) (· = .running l) p fun _ s => s.Tearable l := by
    intro p hp
    refine (Monitor.Triple.only hp ?_).post fun _ s hs => hs ▸ .running
    rintro o r s ho rfl
    exact ⟨_, .mind ho hl, rfl⟩
  refine .step (B := fun r s => (r = .ok () ∧ s = .running l) ∨
    ((∃ e, r = .error e) ∧ s = .leaving l)) ?_ fun r => ?_
  · rintro s (e | ⟨⟨⟩⟩) rfl
    · exact ⟨_, .unspawned, .inr ⟨⟨e, rfl⟩, rfl⟩⟩
    · exact ⟨_, .spawn, .inl ⟨rfl, rfl⟩⟩
  rcases r with e | ⟨⟨⟩⟩
  · exact .ret fun s hs => (hs.resolve_left (by simp)).2 ▸ .leaving
  · refine Monitor.Triple.pre (A := (· = .running l)) ?_ fun s hs => (hs.resolve_right (by simp)).2
    show monitor.Triple _ _ (if cfg.dispatchDeadlineSecs = 0 then _ else _) _
    by_cases hzero : cfg.dispatchDeadlineSecs = 0
    · rw [if_pos hzero]
      have hwait : (lima .shellWait).Only l.minds := Prog.only_op trivial
      exact hminds (hwait.bind fun _ => trivial)
    · rw [if_neg hzero]
      have hnow : (fs .now).Only l.minds := Prog.only_op trivial
      exact hminds (hnow.bind fun _ => watchDispatch_minds)

/-- One stage, and the next where it is done. -/
theorem stage_bind {done : Phase} {A : Phase → Prop} {p : Prog Resp (Except String Unit)}
    {f : Except String Unit → Prog Resp (Except String Unit)}
    (hp : monitor.Triple (.work cur event) A p (Stage done l))
    (hok : monitor.Triple (.work cur event) (· = done) (f (.ok ())) fun _ s => s.Tearable l)
    (herror : ∀ e, ∃ e', f (.error e) = .ret e') :
    monitor.Triple (.work cur event) A (p >>= f) fun _ s => s.Tearable l := by
  refine hp.bind fun r => ?_
  rcases r with e | ⟨⟨⟩⟩
  · obtain ⟨e', he'⟩ := herror e
    rw [he']
    exact .ret fun s hs => (hs.resolve_left (by simp)).2
  · exact hok.pre fun s hs => (hs.resolve_right (by simp)).2

theorem runInVm_life (hl : l.For event) :
    monitor.Triple (.work cur event) (· = .minted l)
      (runInVm cfg fuel event l.vm l.jit l.owner l.repo) fun _ s => s.Tearable l := by
  refine stage_bind writeJitBlob_life ?_ fun e => ⟨_, rfl⟩
  refine stage_bind (startVm_life hl) ?_ fun e => ⟨_, rfl⟩
  refine stage_bind copyJit_life ?_ fun e => ⟨_, rfl⟩
  exact (runAgent_life hl).bind fun race => .ret fun s hs => hs

theorem Lima.tailOf_saves (dir : String) (fnames : List String) :
    (Lima.tailOf dir fnames).Only l.saves := by
  induction fnames with
  | nil => trivial
  | cons fname rest ih =>
    refine .step trivial fun r => ?_
    split
    · trivial
    · exact ih

theorem replacePrivateFile_saves {what : String} {contents : Bytes} :
    (replacePrivateFile what (serialPath l.vm) contents).Only l.saves := by
  refine .step rfl fun r => ?_
  split
  · trivial
  · trivial
  · refine (writePrivateFile_only (φ := l.saves) rfl (fun _ => trivial) fun _ => trivial).bind fun r => ?_
    split <;> trivial

/-- What saves the console's tail. -/
theorem saves_life {p : Prog Resp Unit} (hp : p.Only l.saves) :
    monitor.Triple (.work cur event) (· = .leaving l) p fun _ s => s = .leaving l := by
  refine .only hp ?_
  rintro o r s ho rfl
  exact ⟨_, .save ho, rfl⟩

theorem captureOomEvidence_life :
    monitor.Triple (.work cur event) (·.Tearable l) (captureOomEvidence cfg l.vm)
      fun _ s => s = .leaving l := by
  have hlist : monitor.Triple (.work cur event) (·.Tearable l) (Lima.listInstances cfg.codec)
      fun _ s => s = .leaving l := by
    refine .step (B := fun _ s => s = .leaving l) (fun s r hs => ⟨_, .look hs, rfl⟩) fun r => ?_
    rcases r with e | ⟨status, stdout, stderr⟩
    · exact .ret fun s hs => hs
    · show monitor.Triple _ _ (if status.success = true then _ else _) _
      by_cases hok : status.success = true
      · rw [if_pos hok]
        exact .ret fun s hs => hs
      · rw [if_neg hok]
        exact .ret fun s hs => hs
  have htail : monitor.Triple (.work cur event) (·.Tearable l) (Lima.serialLogTail cfg.codec l.vm)
      fun _ s => s = .leaving l := by
    refine hlist.bind fun r => .only (φ := l.saves) ?_ ?_
    · split
      · trivial
      · split
        · exact (Lima.tailOf_saves _ _).bind fun _ => trivial
        · trivial
    · rintro o r s ho rfl
      exact ⟨_, .save ho, rfl⟩
  refine htail.bind fun r => saves_life ?_
  split
  · split
    · exact replacePrivateFile_saves.bind fun _ => trivial
    · trivial
  · trivial

theorem listInstances_list {C : Codec} :
    (Lima.listInstances C).Only fun o => o = .lima .list := by
  refine .step rfl fun r => ?_
  split
  · trivial
  · split <;> trivial

theorem teardown_life (hl : l.For event) :
    monitor.Triple (.work cur event) (· = .leaving l)
      (teardown cfg l.vm l.owner l.repo l.jit.runnerId) fun _ s => s = .settled := by
  have hstop : monitor.Triple (.work cur event) (· = .leaving l) (Lima.stopVm l.vm)
      fun _ s => s = .stopped l := by
    refine .step (B := fun _ s => s = .stopped l) (fun s r hs => ⟨_, hs ▸ .stop hl, rfl⟩) fun r => ?_
    split <;> exact .ret fun s hs => hs
  have hdelete : monitor.Triple (.work cur event) (· = .stopped l) (Lima.deleteVm cfg.codec l.vm)
      fun _ s => s = .destroyed l := by
    refine .step (B := fun _ s => s = .destroyed l) (fun s r hs => ⟨_, hs ▸ .delete hl, rfl⟩)
      fun r => .only (φ := fun o => o = .lima .list) ?_ ?_
    · split
      · trivial
      · refine (listInstances_list.bind fun r => ?_).bind fun r => ?_
        · split <;> trivial
        · split <;> trivial
    · rintro o r s rfl rfl
      exact ⟨_, .recheck, rfl⟩
  refine hstop.bind fun _ => hdelete.bind fun _ => ?_
  refine .step (B := fun _ s => s = .wiped l) (fun s r hs => ⟨_, hs ▸ .wipe, rfl⟩) fun _ => ?_
  exact .step (B := fun _ s => s = .settled) (fun s r hs => ⟨_, hs ▸ .giveUp hl, rfl⟩) fun _ =>
    .ret fun s hs => hs

theorem runJob_life :
    monitor.Triple (.work cur event) (· = .idle) (runJob cfg fuel event) fun _ s => s.Free := by
  unfold runJob
  split
  · exact .ret fun s hs => hs ▸ .idle
  · rename_i owner repo hsplit
    let lease (jit : JitConfigResp) : Lease := ⟨vmNameForEvent event, owner, repo, jit⟩
    have hlease : ∀ jit, (lease jit).For event := fun jit => ⟨rfl, hsplit⟩
    refine .step (B := fun r s => (∃ jit, r = .ok jit ∧ s = .minted (lease jit)) ∨
      ((∃ e, r = .error e) ∧ s = .settled)) ?_ fun r => ?_
    · rintro s (e | jit) rfl
      · exact ⟨_, .unminted rfl hsplit, .inr ⟨⟨e, rfl⟩, rfl⟩⟩
      · exact ⟨_, .mint (hlease jit), .inl ⟨jit, rfl, rfl⟩⟩
    rcases r with e | jit
    · exact .ret fun s hs => (hs.resolve_left (by simp)).2 ▸ .settled
    · refine Monitor.Triple.pre (A := (· = .minted (lease jit))) ?_ ?_
      · refine (runInVm_life (hlease jit)).bind fun inner => captureOomEvidence_life.bind fun _ => ?_
        exact (teardown_life (hlease jit)).bind fun _ => .ret fun s hs => hs ▸ .settled
      · rintro s (⟨jit', hjit, rfl⟩ | ⟨⟨e, he⟩, -⟩)
        · cases hjit
          rfl
        · cases he

/-- The calls of an archive under the lock. -/
def archives (cur : String) (o : Op) : Prop := o.finalizes cur ∧ ∃ o', o = .fs o'

theorem archive_fs {dest : Path} : (archive cur dest).Only fun o => ∃ o', o = .fs o' := by
  refine .step ⟨_, rfl⟩ fun r => ?_
  split
  · trivial
  · trivial
  · have hpreserve : (preserveExisting dest).Only fun o => ∃ o', o = .fs o' := by
      refine .step ⟨_, rfl⟩ fun there => ?_
      split
      · refine .step ⟨_, rfl⟩ fun now => .step ⟨_, rfl⟩ fun r => ?_
        split <;> trivial
      · trivial
    refine hpreserve.bind fun bak => ?_
    rcases bak with _ | bak
    · refine .step ⟨_, rfl⟩ fun r => ?_
      split <;> trivial
    · refine .step ⟨_, rfl⟩ fun r => ?_
      split
      · trivial
      · exact .step ⟨_, rfl⟩ fun _ => trivial
  · trivial

theorem archive_archives {dest : Path} (h : dest.dir.isArchive = true) :
    (archive cur dest).Only (archives cur) :=
  (archive_only cur h).and archive_fs

theorem stampInstalled_archives {dest : Path} {r : Except String Bool} :
    (stampInstalled dest r).Only (archives cur) := by
  refine (stampInstalled_only dest r).mono fun o ho => ⟨ho.finalizes cur, ?_⟩
  cases o with
  | fs o => exact ⟨o, rfl⟩
  | sched | lima | hub => exact ho.elim

theorem archives_life {α : Type} {p : Prog Resp α} (hp : p.Only (archives cur)) :
    monitor.Triple (.work cur event) (· = .closing) p fun _ s => s = .closing := by
  refine .only hp ?_
  rintro _ r s ⟨ho, o, rfl⟩ rfl
  exact ⟨_, .archive ho, rfl⟩

theorem lock_life {A : Phase → Prop} (hA : ∀ s, A s → s.Free) {α : Type}
    {f : Unit → Prog Resp α} {Q : α → Phase → Prop}
    (hf : ∀ r, monitor.Triple (.work cur event) (· = .closing) (f r) Q) :
    monitor.Triple (.work cur event) A (sched .lockArchive >>= f) Q :=
  .step (B := fun _ s => s = .closing) (fun s _ hs => ⟨_, .lock (hA s hs), rfl⟩) hf

/-- An archive, to the lock's release. -/
theorem archiveAndStamp_life {context : String} {dest : Path} (h : dest.dir.isArchive = true) :
    monitor.Triple (.work cur event) (· = .closing) (archiveAndStamp context cur dest)
      fun _ s => s = .closed := by
  refine (archives_life (archive_archives h)).bind fun r =>
    (archives_life stampInstalled_archives).bind fun _ => ?_
  exact .step (B := fun _ s => s = .closed) (fun s _ hs => ⟨_, hs ▸ .unlock, rfl⟩) fun _ =>
    .ret fun s hs => hs

theorem completionCheck_life :
    monitor.Triple (.work cur event) (·.Free) (completionCheck cfg event) fun _ s => s.Free := by
  have honly : (completionCheck cfg event).Only fun o => ∃ owner repo id,
      splitOnce event.repository.fullName = some (owner, repo) ∧
        o = .hub (.jobStatus owner repo id) := by
    unfold completionCheck completionActionViaApi
    split
    · split
      · trivial
      · rename_i owner repo hsplit
        refine .step ⟨owner, repo, _, hsplit, rfl⟩ fun r => ?_
        split <;> trivial
    · trivial
  refine .only honly ?_
  rintro _ r s ⟨owner, repo, id, hsplit, rfl⟩ hs
  exact ⟨s, .ask hs hsplit, hs⟩

theorem finalizeJob_life {outcome : Except String Unit} :
    monitor.Triple (.work cur event) (·.Free) (finalizeJob cfg cur event outcome)
      fun _ s => s = .closed := by
  rcases outcome with e | ⟨⟨⟩⟩
  · have hfin : monitor.Triple (.work cur event) (·.Free) (finalizeError cur e)
        fun _ s => s = .closed := by
      refine lock_life (fun _ hs => hs) fun _ => ?_
      refine .step (B := fun _ s => s = .closing) ?_ fun _ => archiveAndStamp_life rfl
      rintro s _ rfl
      exact ⟨_, .archive rfl, rfl⟩
    exact hfin.bind fun _ => .ret fun s hs => hs
  · have hfin : monitor.Triple (.work cur event) (·.Free) (finalizeDone cur)
        fun _ s => s = .closed := lock_life (fun _ hs => hs) fun _ => archiveAndStamp_life rfl
    exact completionCheck_life.bind fun _ => hfin.bind fun _ => .ret fun s hs => hs

end Worker

theorem sound_monitor {cfg : Config} {fuel : ℕ} : monitor.Sound (machine cfg fuel) where
  body k := by
    have hother : ∀ {k : Task}, Ownership.job k = none → (∀ s, monitor.pre k s) →
        (∀ e s, monitor.next k s e .other) →
        monitor.Triple k (monitor.pre k) (body cfg fuel k) (monitor.post k) := by
      intro k hk hpre hnext
      refine ((Monitor.Triple.only (Prog.only_true _) fun o r s _ _ => ⟨_, hnext _ s, hpre _⟩).and_returns
        (Ownership.body_next k)).post fun next s hs => ?_
      cases next with
      | none =>
        have hjob := hs.1.loop rfl
        rw [hk] at hjob
        cases hjob
      | some k' =>
        have hjob := (hs.1.place k' rfl).2.1
        cases k' with
        | work => cases hjob
        | _ => trivial
    cases k with
    | work cur event =>
      exact (runJob_life.bind fun outcome => finalizeJob_life).bind fun _ => .ret fun s hs => hs
    | _ => exact hother rfl (fun _ => trivial) fun _ _ => rfl
  forks {o r u k} h := by
    cases o with
    | sched o =>
      cases o with
      | spawnJob cur event =>
        cases h
        rfl
      | _ => cases h
    | _ => cases h
  crash h := by cases h

/-! ## What the life says of the history -/

section History

variable {l l' : Lease} {s s' : Phase} {e : Event Resp} {ρ : Interleave.History Resp}
variable {cur : String} {event : WorkflowJob}

/-- The runner was minted. -/
def Minted (l : Lease) (e : Event Resp) : Prop :=
  ∃ labels, e = ⟨.hub (.generateJitConfig l.owner l.repo l.vm labels), .ok l.jit⟩

/-- The call was made, whatever the answer. -/
def Made (o : Op) (e : Event Resp) : Prop := e.1 = o

/-- The VM was booted. -/
def Booted (l : Lease) (e : Event Resp) : Prop :=
  ∃ r, Lima.exitedOk r = true ∧ e = ⟨.lima (.start l.vm), r⟩

/-- The VM was handed the blob. -/
def Seeded (l : Lease) (e : Event Resp) : Prop :=
  ∃ r, Lima.exitedOk r = true ∧ e = ⟨.lima (.copyInto l.vm), r⟩

/-- The calls that store the blob, the latest first. -/
def storing (l : Lease) (file : Ino) : List (Event Resp → Prop) :=
  [(· = ⟨.fs (.syncAll file), .ok ()⟩), (· = ⟨.fs (.writeAll file l.blob), .ok ()⟩),
    (· = ⟨.fs (.createNew (jitPath l.vm)), .ok file⟩), Minted l]

/-- The calls that give a runner up, the latest first. -/
def givingUp (l : Lease) : List (Event Resp → Prop) :=
  [Made (.hub (.deleteRunner l.owner l.repo l.jit.runnerId)), Made (.fs (.removeFile (jitPath l.vm))),
    Made (.lima (.delete l.vm)), Made (.lima (.stop l.vm)), Minted l]

/-- No other runner was minted. -/
def Sole (l : Lease) (ρ : Interleave.History Resp) : Prop :=
  ∀ l' e, Minted l' e → e ∈ ρ → l' = l

/-- Whatever was minted was given up, before these calls. -/
def GivenUp (Ps : List (Event Resp → Prop)) (ρ : Interleave.History Resp) : Prop :=
  ∀ l e, Minted l e → e ∈ ρ → Ordered (Ps ++ givingUp l) ρ

/-- What a phase says of the calls so far. -/
def Phase.Shows : Phase → Interleave.History Resp → Prop
  | .other, _ => True
  | .idle, ρ => ∀ l e, Minted l e → e ∉ ρ
  | .minted l, ρ | .leaving l, ρ => Sole l ρ ∧ Ordered [Minted l] ρ
  | .opened l file, ρ => Sole l ρ ∧ Ordered ((storing l file).drop 2) ρ
  | .written l file, ρ => Sole l ρ ∧ Ordered ((storing l file).drop 1) ρ
  | .stored l, ρ => Sole l ρ ∧ ∃ file, Ordered (storing l file) ρ
  | .booted l, ρ => Sole l ρ ∧ ∃ file, Ordered (Booted l :: storing l file) ρ
  | .seeded l, ρ | .running l, ρ =>
    Sole l ρ ∧ ∃ file, Ordered (Seeded l :: Booted l :: storing l file) ρ
  | .stopped l, ρ => Sole l ρ ∧ Ordered ((givingUp l).drop 3) ρ
  | .destroyed l, ρ => Sole l ρ ∧ Ordered ((givingUp l).drop 2) ρ
  | .wiped l, ρ => Sole l ρ ∧ Ordered ((givingUp l).drop 1) ρ
  | .settled, ρ => GivenUp [] ρ
  | .closing, ρ => GivenUp [Made (.sched .lockArchive)] ρ
  | .closed, ρ => GivenUp [Made (.sched .unlockArchive), Made (.sched .lockArchive)] ρ

/-- A runner is minted by an idle worker alone. -/
theorem Step.not_minted (h : Step cur event s e s') (hs : s ≠ .idle) : ¬ Minted l' e := by
  rintro ⟨labels, rfl⟩
  cases h with
  | mint => exact hs rfl
  | mind h | save h => exact h.elim

theorem Sole.cons (h : Sole l ρ) (he : ¬ ∃ l', Minted l' e) : Sole l (e :: ρ) := by
  intro l' e' hmint hmem
  rcases List.mem_cons.mp hmem with rfl | hmem
  · exact (he ⟨l', hmint⟩).elim
  · exact h l' e' hmint hmem

theorem givenUp_of_none {Ps : List (Event Resp → Prop)} (h : ∀ l e, Minted l e → e ∉ ρ) :
    GivenUp Ps ρ :=
  fun l e hmint hmem => (h l e hmint hmem).elim

/-- A call that mints nothing. -/
theorem not_mem_cons (h : ∀ l e, Minted l e → e ∉ ρ) (he : ¬ ∃ l, Minted l e) :
    ∀ l e', Minted l e' → e' ∉ e :: ρ := by
  intro l e' hmint hmem
  rcases List.mem_cons.mp hmem with rfl | hmem
  · exact he ⟨l, hmint⟩
  · exact h l e' hmint hmem

theorem GivenUp.cons {Ps : List (Event Resp → Prop)} (h : GivenUp Ps ρ) (he : ¬ ∃ l, Minted l e) :
    GivenUp Ps (e :: ρ) := by
  intro l e' hmint hmem
  rcases List.mem_cons.mp hmem with rfl | hmem
  · exact (he ⟨l, hmint⟩).elim
  · exact (h l e' hmint hmem).cons e

theorem GivenUp.push {P : Event Resp → Prop} {Ps : List (Event Resp → Prop)} (h : GivenUp Ps ρ)
    (he : ¬ ∃ l, Minted l e) (hP : P e) : GivenUp (P :: Ps) (e :: ρ) := by
  intro l e' hmint hmem
  rcases List.mem_cons.mp hmem with rfl | hmem
  · exact (he ⟨l, hmint⟩).elim
  · exact (h l e' hmint hmem).push hP

/-- What an idle worker's first call shows. -/
theorem shows_idle (h : Phase.idle.Shows ρ) (hs : Step cur event .idle e s') :
    s'.Shows (e :: ρ) := by
  cases hs with
  | @mint owner repo name labels jit hl =>
    refine ⟨fun l' e' hmint hmem => ?_, Ordered.push trivial ⟨labels, rfl⟩⟩
    rcases List.mem_cons.mp hmem with rfl | hmem
    · obtain ⟨labels', heq⟩ := hmint
      simp only [Sigma.mk.injEq, Op.hub.injEq, Hub.Op.generateJitConfig.injEq] at heq
      obtain ⟨⟨rfl, rfl, rfl, rfl⟩, hr⟩ := heq
      cases hr
      rfl
    · exact (h l' e' hmint hmem).elim
  | unminted =>
    refine givenUp_of_none (not_mem_cons h ?_)
    rintro ⟨l, labels, heq⟩
    simp at heq
  | look hl => cases hl
  | ask hs => exact not_mem_cons h (by rintro ⟨l, labels, heq⟩; simp at heq)
  | lock => exact givenUp_of_none (not_mem_cons h (by rintro ⟨l, labels, heq⟩; simp at heq))

/-- **The phase keeps saying what was called**, and in which order. -/
theorem shows_step (h : s.Shows ρ) (hs : Step cur event s e s') : s'.Shows (e :: ρ) := by
  by_cases hidle : s = .idle
  · exact shows_idle (hidle ▸ h) (hidle ▸ hs)
  -- past `idle` no step mints, so the lease stays the only one
  have hnot : ¬ ∃ l, Minted l e := fun ⟨l, hmint⟩ => hs.not_minted hidle hmint
  cases hs with
  | mint | unminted => exact absurd rfl hidle
  | unlink | save => exact ⟨h.1.cons hnot, h.2.cons _⟩
  | create => exact ⟨h.1.cons hnot, h.2.push rfl⟩
  | uncreated => exact ⟨h.1.cons hnot, h.2.cons _⟩
  | write => exact ⟨h.1.cons hnot, h.2.push rfl⟩
  | unwritten => exact ⟨h.1.cons hnot, h.2.tail.cons _⟩
  | @sync l file => exact ⟨h.1.cons hnot, file, h.2.push rfl⟩
  | unsynced => exact ⟨h.1.cons hnot, h.2.tail.tail.cons _⟩
  | boot hr =>
    obtain ⟨hsole, file, ho⟩ := h
    exact ⟨hsole.cons hnot, file, ho.push ⟨_, hr, rfl⟩⟩
  | unbooted =>
    obtain ⟨hsole, file, ho⟩ := h
    exact ⟨hsole.cons hnot, ho.tail.tail.tail.cons _⟩
  | seed hr =>
    obtain ⟨hsole, file, ho⟩ := h
    exact ⟨hsole.cons hnot, file, ho.push ⟨_, hr, rfl⟩⟩
  | unseeded =>
    obtain ⟨hsole, file, ho⟩ := h
    exact ⟨hsole.cons hnot, ho.tail.tail.tail.tail.cons _⟩
  | spawn | mind =>
    obtain ⟨hsole, file, ho⟩ := h
    exact ⟨hsole.cons hnot, file, ho.cons _⟩
  | unspawned =>
    obtain ⟨hsole, file, ho⟩ := h
    exact ⟨hsole.cons hnot, ho.tail.tail.tail.tail.tail.cons _⟩
  | look hl =>
    cases hl with
    | minted | leaving => exact ⟨h.1.cons hnot, h.2.cons _⟩
    | running =>
      obtain ⟨hsole, file, ho⟩ := h
      exact ⟨hsole.cons hnot, ho.tail.tail.tail.tail.tail.cons _⟩
  | stop | delete | wipe => exact ⟨h.1.cons hnot, h.2.push rfl⟩
  | recheck => exact ⟨h.1.cons hnot, h.2.cons _⟩
  | giveUp =>
    intro l' e' hmint hmem
    rcases List.mem_cons.mp hmem with rfl | hmem
    · exact (hnot ⟨l', hmint⟩).elim
    · rw [h.1 l' e' hmint hmem]
      exact h.2.push rfl
  | ask hs =>
    cases hs with
    | idle => exact absurd rfl hidle
    | settled => exact h.cons hnot
  | lock hs =>
    cases hs with
    | idle => exact absurd rfl hidle
    | settled => exact h.push hnot rfl
  | archive => exact h.cons hnot
  | unlock => exact h.push hnot rfl

end History

/-! ## Every worker of every run -/

/-- What a worker has done before a call. -/
structure InOrder (event : WorkflowJob) (o : Op) (ρ : Interleave.History Resp) : Prop where
  /-- A VM is started for a runner leased for the job, its blob on disk. -/
  start : ∀ vm, o = .lima (.start vm) →
    ∃ l file, l.For event ∧ l.vm = vm ∧ Ordered (storing l file) ρ
  /-- The agent is started in a VM booted for it and handed the blob. -/
  shell : ∀ vm, o = .lima (.shellStart vm) →
    ∃ l file, l.vm = vm ∧ Ordered (Seeded l :: Booted l :: storing l file) ρ
  /-- The runner deleted is the one leased, its VM and its blob gone
  before it. -/
  giveUp : ∀ owner repo id, o = .hub (.deleteRunner owner repo id) →
    ∃ l, l.For event ∧ l.owner = owner ∧ l.repo = repo ∧ l.jit.runnerId = id ∧
      Ordered ((givingUp l).drop 1) ρ
  /-- No claim is archived with a runner held. -/
  lock : o = .sched .lockArchive → GivenUp [] ρ

theorem inOrder_of_step {cur : String} {event : WorkflowJob} {s s' : Phase} {o : Op} {r : Resp o}
    {ρ : Interleave.History Resp} (h : s.Shows ρ) (hs : Step cur event s ⟨o, r⟩ s') :
    InOrder event o ρ := by
  refine ⟨?_, ?_, ?_, ?_⟩
  · rintro vm rfl
    cases hs with
    | @boot l _ hr hl | @unbooted l _ hr hl =>
      obtain ⟨-, file, ho⟩ := h
      exact ⟨l, file, hl, rfl, ho⟩
    | mind hl | save hl => exact hl.elim
  · rintro vm rfl
    cases hs with
    | @spawn l | @unspawned l =>
      obtain ⟨-, file, ho⟩ := h
      exact ⟨l, file, rfl, ho⟩
    | mind hl | save hl => exact hl.elim
  · rintro owner repo id rfl
    cases hs with
    | @giveUp l _ hl => exact ⟨l, hl, rfl, rfl, rfl, h.2⟩
    | mind hl | save hl => exact hl.elim
  · rintro rfl
    cases hs with
    | lock hfree =>
      cases hfree with
      | idle => exact givenUp_of_none h
      | settled => exact h
    | mind hl | save hl => exact hl.elim

/-- Every worker has lived as `Step` says from its start on, its calls are
in order, and one that has ended has given up what it leased and has
archived its claim. -/
structure Lives (τ : Daemon.History) : Prop where
  follows : ∀ u cur event o r w σ, .did u (.work cur event) o r w :: σ <:+ τ →
    ∃ s, Follows cur event (⟨o, r⟩ :: Entry.own u σ) s
  order : ∀ u cur event o r w σ, .did u (.work cur event) o r w :: σ <:+ τ →
    InOrder event o (Entry.own u σ)
  closed : ∀ u cur event w σ, .ended u (.work cur event) w :: σ <:+ τ →
    Follows cur event (Entry.own u σ) .closed
  ended : ∀ u cur event w σ, .ended u (.work cur event) w :: σ <:+ τ →
    GivenUp [Made (.sched .unlockArchive), Made (.sched .lockArchive)] (Entry.own u σ)

variable {cfg : Config} {fuel : ℕ} {c₀ c : Pool} {Meets : Daemon.State → Line → Prop}

theorem start_monitor (h₀ : Daemon.Start cfg fuel c₀) : monitor.Start (machine cfg fuel) c₀ where
  trace := h₀.trace
  fresh t k p ht := by
    rw [h₀.threads] at ht
    rw [h₀.next]
    unfold Daemon.loops at ht
    split at ht <;> cases ht
    · exact ⟨by decide, rfl, trivial⟩
    · exact ⟨by decide, rfl, trivial⟩
    · exact ⟨by decide, rfl, trivial⟩

/-- A worker's task is the only one its thread is ever at. -/
def isWork (k : Task) : Prop := (Ownership.job k).isSome

theorem sound_single : (Monitor.single isWork).Sound (machine cfg fuel) :=
  Monitor.sound_single
    (fun k => (Ownership.body_next k).mono fun next h k' hk' hwork => by
      rw [isWork, (h.place k' hk').2.1] at hwork
      cases hwork)
    fun _ _ => rfl

theorem start_single (h₀ : Daemon.Start cfg fuel c₀) :
    (Monitor.single isWork).Start (machine cfg fuel) c₀ :=
  ⟨h₀.trace, fun t k p ht =>
    have h := (start_monitor h₀).fresh t k p ht
    ⟨h.1, h.2.1, nofun⟩⟩

/-- Where a worker is, it has lived to be. -/
theorem follows_at {t : Tid} {τ : Daemon.History} {s : Phase} {cur : String} {event : WorkflowJob}
    (hs : monitor.At t τ s) (hk : ∀ k (o : Op) (r : Resp o) w, .did t k o r w ∈ τ →
      k = .work cur event) : Follows cur event (Entry.own t τ) s := by
  refine hs.induction_tasks hk .idle fun k ρ s e s' hwork h hn => ?_
  subst hwork
  exact h.step hn

theorem shows_of_follows {cur : String} {event : WorkflowJob} {ρ : Interleave.History Resp}
    {s : Phase} (h : Follows cur event ρ s) : s.Shows ρ := by
  induction h with
  | idle => exact fun _ _ _ hmem => by cases hmem
  | step _ hs ih => exact shows_step ih hs

section Runs

variable {u : Tid} {cur : String} {event : WorkflowJob} {w : World} {σ : Daemon.History}

/-- Up to each of its calls a worker has lived so, the call included. -/
theorem follows_of_work (h₀ : Daemon.Start cfg fuel c₀) (hr : (machine cfg fuel).Run Meets c₀ c)
    {o : Op} {r : Resp o} (hsuf : .did u (.work cur event) o r w :: σ <:+ c.trace) :
    ∃ s s', Follows cur event (Entry.own u σ) s ∧ Step cur event s ⟨o, r⟩ s' := by
  obtain ⟨s, s', hat, hn⟩ :=
    Monitor.next_of_line ((sound_monitor.run (start_monitor h₀) hr).accepted u) hsuf
  obtain ⟨ks, -, hks, hsole, -⟩ :=
    Monitor.next_of_line ((sound_single.run (start_single h₀) hr).accepted u) hsuf
  exact ⟨s, s', follows_at hat fun k _ _ _ he => hsole rfl k (Monitor.mem_of_single hks he), hn⟩

/-- A worker that has ended has lived to its end. -/
theorem follows_of_end (h₀ : Daemon.Start cfg fuel c₀) (hr : (machine cfg fuel).Run Meets c₀ c)
    (hsuf : .ended u (.work cur event) w :: σ <:+ c.trace) :
    Follows cur event (Entry.own u σ) .closed := by
  obtain ⟨s, hat, hfin⟩ := (sound_monitor.run (start_monitor h₀) hr).ended u _ w σ hsuf
  obtain ⟨ks, hks, hsole⟩ := (sound_single.run (start_single h₀) hr).ended u _ w σ hsuf
  obtain rfl : s = .closed := hfin
  exact follows_at hat fun k _ _ _ he => hsole rfl k (Monitor.mem_of_single hks he)

theorem inOrder_of_work (h₀ : Daemon.Start cfg fuel c₀) (hr : (machine cfg fuel).Run Meets c₀ c)
    {o : Op} {r : Resp o} (hsuf : .did u (.work cur event) o r w :: σ <:+ c.trace) :
    InOrder event o (Entry.own u σ) := by
  obtain ⟨s, s', hs, hn⟩ := follows_of_work h₀ hr hsuf
  exact inOrder_of_step (shows_of_follows hs) hn

theorem givenUp_of_end (h₀ : Daemon.Start cfg fuel c₀) (hr : (machine cfg fuel).Run Meets c₀ c)
    (hsuf : .ended u (.work cur event) w :: σ <:+ c.trace) :
    GivenUp [Made (.sched .unlockArchive), Made (.sched .lockArchive)] (Entry.own u σ) :=
  shows_of_follows (follows_of_end h₀ hr hsuf)

/-- **Every worker of every run lives so.** -/
theorem life_of_worker (h₀ : Daemon.Start cfg fuel c₀) (hr : (machine cfg fuel).Run Meets c₀ c) :
    Lives c.trace where
  follows _ _ _ _ _ _ _ hsuf := by
    obtain ⟨s, s', hs, hn⟩ := follows_of_work h₀ hr hsuf
    exact ⟨s', hs.step hn⟩
  order _ _ _ _ _ _ _ hsuf := inOrder_of_work h₀ hr hsuf
  closed _ _ _ _ _ hsuf := follows_of_end h₀ hr hsuf
  ended _ _ _ _ _ hsuf := givenUp_of_end h₀ hr hsuf

end Runs

/-- `n` calls of thread `t`: no directory has an entry, the job is queued,
every command succeeds, and thread 3 is the next to be started. -/
def calls (t : Tid) (n : ℕ) (listing : String) : List (machine sampleConfig 1).Move :=
  .replicate n (.call t (Answers.oracle {
    sched := ⟨"", 3⟩
    lima := ⟨.ok ⟨true, ""⟩, true, true, listing.toUTF8.toList, "", some "/vm", none⟩
    hub := ⟨none, true, "", [], none, none, [sampleStatus]⟩ }))

/-- The claim of the worker that has just ended, and whether it minted a
runner. -/
def lastEnded (c : Pool) : Option (String × Bool) :=
  match c.trace with
  | .ended u (.work cur _) _ :: σ =>
    some (cur, (Entry.own u σ).any fun
      | ⟨.hub (.generateJitConfig ..), .ok _⟩ => true
      | _ => false)
  | _ => none

/-- The job is claimed and its worker runs it to its end. -/
def lifeSchedule (listing : String) : List (machine sampleConfig 1).Move :=
  calls reconciler 21 listing ++ calls 3 25 listing ++ [.exit 3]

theorem ended_sample :
    ((machine sampleConfig 1).follow (fun _ _ => true) (lifeSchedule "x\n")
      (Pause.samplePool (.sample [] 0))).map lastEnded = some (some ("42.job", true)) := by
  decide +kernel

/-- A worker that mints its runner, runs its job and ends. -/
theorem life_of_worker_sample :
    ∃ c, (machine sampleConfig 1).Run (fun _ _ => True) (Pause.samplePool (.sample [] 0)) c ∧
      lastEnded c = some ("42.job", true) ∧ Lives c.trace := by
  obtain ⟨c, hc, hlast⟩ := Option.map_eq_some_iff.mp ended_sample
  have hr := (Machine.run_of_follow hc).mono fun _ _ _ => trivial
  exact ⟨c, hr, hlast, life_of_worker (Pause.samplePool_start rfl rfl rfl rfl) hr⟩

end Life

end GhaConsumer

import GhaConsumer.Control.Listing
import GhaConsumer.Daemon.Life
import GhaConsumer.Daemon.Passes
import GhaConsumer.Host.Sample
import GhaConsumer.Interleave.Ladder

/-!
# The daemon — nobody waits for ever on another

The threads share permits, the archive lock and the pause flag, and wait
for each. A thread waits for the flag and for a permit with nothing in its
hands, and for the lock with at most a permit (`purse`): the permit is one
rung of a ladder and the lock the next. So in every reachable state
whoever waits for a permit or for the lock waits, through at most one
other, on a thread that can move, and who waits for the flag keeps nobody
else waiting (`no_deadlock`).
-/

namespace GhaConsumer

namespace Progress

open Interleave Daemon Relation

/-! ## What a thread has in its hands -/

/-- A permit it has acquired, and the archive lock. -/
structure Purse where
  permit : Bool
  lock : Bool
  deriving DecidableEq

/-- Nothing. -/
def Purse.empty : Purse := ⟨false, false⟩

/-- What a call leaves in the hands. -/
def Purse.after (s : Purse) : Event Resp → Purse
  | ⟨.sched .acquire, _⟩ => { s with permit := true }
  | ⟨.sched .tryAcquire, got⟩ => { s with permit := s.permit || got }
  | ⟨.sched .release, _⟩ | ⟨.sched (.spawnJob ..), _⟩ => { s with permit := false }
  | ⟨.sched .lockArchive, _⟩ => { s with lock := true }
  | ⟨.sched .unlockArchive, _⟩ => { s with lock := false }
  | _ => s

/-- What must be in a loop's hands for a call, and must not. A worker's
permit is the one it was started with: it asks for none and gives none
back. -/
def Purse.allows (s : Purse) (worker : Bool) : Op → Prop
  | .sched .waitUnpaused | .sched .acquire | .sched .tryAcquire =>
    worker = false ∧ s = .empty
  | .sched .release | .sched (.spawnJob ..) => worker = false ∧ s = ⟨true, false⟩
  | .sched .lockArchive => s.lock = false
  | .sched .unlockArchive => s.lock = true
  | _ => True

/-- The thread is a worker. -/
def isWorker : Task → Bool
  | .work .. => true
  | _ => false

/-- What each task begins with. -/
def begins : Task → Purse
  | .prepare _ => ⟨true, false⟩
  | _ => .empty

/-- The purse, as a monitor. -/
def purse : Monitor Resp Task Purse where
  init := .empty
  next k s e s' := s.allows (isWorker k) e.1 ∧ s' = s.after e
  pre k s := s = begins k
  fin _ s := s.lock = false

/-- The call changes nothing in the hands, and may always be made. -/
def Steady : Op → Prop
  | .sched .acquire | .sched .tryAcquire | .sched .release | .sched (.spawnJob ..)
  | .sched .lockArchive | .sched .unlockArchive | .sched .waitUnpaused => False
  | _ => True

/-! ## Each task -/

section Tasks

variable {cfg : Config} {fuel : ℕ} {k : Task} {b : Bool} {name : String} {o : Op} {α : Type}

theorem Steady.next (ho : Steady o) {s : Purse} {r : Resp o} : purse.next k s ⟨o, r⟩ s := by
  unfold purse Purse.allows Purse.after
  cases o with
  | fs | lima | hub => exact ⟨trivial, rfl⟩
  | sched o =>
    cases o with
    | recv | isPaused | sleep | log => exact ⟨trivial, rfl⟩
    | _ => exact ho.elim

/-- A steady call, and the rest. -/
theorem steady_step {f : Resp o → Prog Resp α} {A : Purse → Prop} {Q : α → Purse → Prop}
    (ho : Steady o) (hf : ∀ r, purse.Triple k A (f r) Q) :
    purse.Triple k A (Prog.op o >>= f) Q :=
  .step (fun s _ hs => ⟨s, ho.next, hs⟩) hf

/-- Steady calls leave the hands as they were. -/
theorem steady_triple {A : Purse → Prop} {p : Prog Resp α} (hp : p.Only Steady) :
    purse.Triple k A p fun _ => A :=
  .only hp fun _ _ s ho hs => ⟨s, ho.next, hs⟩

theorem steady_of_fs (h : ∃ o', o = .fs o') : Steady o := by
  obtain ⟨o', rfl⟩ := h
  trivial

theorem steady_of_stamps (h : o.stamps) : Steady o := by
  unfold Op.stamps at h
  split at h <;> trivial

theorem archiveAndStamp_purse {context : String} {dest : Path} (h : dest.dir.isArchive = true) :
    purse.Triple k (· = ⟨b, true⟩) (archiveAndStamp context name dest)
      fun _ s => s = ⟨b, false⟩ := by
  refine (steady_triple ((Life.archive_archives h).mono fun _ ho => steady_of_fs ho.2)).bind
    fun installed => ?_
  refine (steady_triple ((stampInstalled_only dest installed).mono fun _ => steady_of_stamps)).bind
    fun _ => ?_
  refine .step (B := fun _ s => s = ⟨b, false⟩) ?_ fun _ => .ret fun _ hs => hs
  rintro s r rfl
  exact ⟨_, ⟨rfl, rfl⟩, rfl⟩

/-- The lock is taken, and a program that gives it back goes on. -/
theorem lock_purse {f : Unit → Prog Resp α}
    (hf : purse.Triple k (· = ⟨b, true⟩) (f ()) fun _ s => s = ⟨b, false⟩) :
    purse.Triple k (· = ⟨b, false⟩) (sched .lockArchive >>= f) fun _ s => s = ⟨b, false⟩ := by
  refine .step (B := fun _ s => s = ⟨b, true⟩) ?_ fun _ => hf
  rintro s r rfl
  exact ⟨_, ⟨rfl, rfl⟩, rfl⟩

theorem unlock_purse : purse.Triple k (· = ⟨b, true⟩) (sched .unlockArchive) fun _ s => s = ⟨b, false⟩ := by
  refine .step (f := .ret) (B := fun _ s => s = ⟨b, false⟩) ?_ fun _ => .ret fun _ hs => hs
  rintro s r rfl
  exact ⟨_, ⟨rfl, rfl⟩, rfl⟩

theorem finalizeDone_purse :
    purse.Triple k (· = ⟨b, false⟩) (finalizeDone name) fun _ s => s = ⟨b, false⟩ :=
  lock_purse (archiveAndStamp_purse rfl)

theorem finalizeError_purse {reason : String} :
    purse.Triple k (· = ⟨b, false⟩) (finalizeError name reason) fun _ s => s = ⟨b, false⟩ := by
  refine lock_purse (.step (B := fun _ s => s = ⟨b, true⟩) ?_ fun _ => archiveAndStamp_purse rfl)
  rintro s r rfl
  exact ⟨_, ⟨trivial, rfl⟩, rfl⟩

theorem pruneArchiveEntry_purse {dir : Dir} {retentionSecs now : ℕ} :
    purse.Triple k (· = ⟨b, false⟩) (pruneArchiveEntry dir retentionSecs now name)
      fun _ s => s = ⟨b, false⟩ := by
  refine steady_step trivial fun r => ?_
  split
  · exact .ret fun _ hs => hs
  · split
    · exact .ret fun _ hs => hs
    · refine lock_purse (steady_step trivial fun r => ?_)
      split
      · exact unlock_purse
      · split
        · exact unlock_purse
        · exact steady_step trivial fun _ => unlock_purse

theorem forEntries_purse {A : Purse → Prop} {f : String → Prog Resp Unit}
    (hf : ∀ name, purse.Triple k A (f name) fun _ => A) :
    purse.Triple k A (forEntries fuel f) fun _ => A :=
  (Monitor.Triple.whileSome (steady_triple (Prog.only_op (o := Op.fs .nextEntry) trivial))
    (fun _ ent => hf ent.name) fuel ()).bind fun _ => .ret fun _ hs => hs

/-- The logs and the blobs are pruned without the lock. -/
theorem pruneSerialLogs_steady (retentionSecs : ℕ) : (pruneSerialLogs fuel retentionSecs).Only Steady := by
  unfold pruneSerialLogs
  split
  · trivial
  · refine .step trivial fun r => ?_
    split
    · trivial
    · refine .step trivial fun now => forEntries_only trivial fun name => ?_
      unfold pruneSerialLog
      split
      · trivial
      · refine .step trivial fun r => ?_
        split
        · trivial
        · split
          · trivial
          · exact .step trivial fun _ => trivial

theorem pruneStaleJitBlobs_steady (maxAgeSecs : ℕ) : (pruneStaleJitBlobs fuel maxAgeSecs).Only Steady := by
  refine .step trivial fun r => ?_
  split
  · trivial
  · refine forEntries_only trivial fun name => ?_
    unfold pruneJitBlob
    split
    · trivial
    · refine .step trivial fun r => ?_
      split
      · trivial
      · refine .step trivial fun now => ?_
        split
        · trivial
        · refine .step trivial fun r => ?_
          split
          · trivial
          · refine .step trivial fun later => ?_
            split
            · trivial
            · exact .step trivial fun _ => trivial

/-- A call of the collector's passes and the reconciler's, of functions,
leaves a permit in the hands as it was. -/
theorem impl_purse {c : Call} (hc : ∀ o, c = .host o → Steady o) :
    purse.Triple k (· = ⟨b, false⟩) (c.impl cfg fuel) fun _ s => s = ⟨b, false⟩ := by
  have hsteady : ∀ {α : Type} {p : Prog Resp α}, p.Only Steady →
      purse.Triple k (· = ⟨b, false⟩) p fun _ s => s = ⟨b, false⟩ := steady_triple
  have hopen : ∀ {d : Dir} {α : Type} {f : Resp (.fs (.openDir d)) → Prog Resp α},
      (∀ r, purse.Triple k (· = ⟨b, false⟩) (f r) fun _ s => s = ⟨b, false⟩) →
        purse.Triple k (· = ⟨b, false⟩) (fs (.openDir d) >>= f) fun _ s => s = ⟨b, false⟩ :=
    fun {d} _ _ hf =>
      (hsteady (p := fs (.openDir d)) (Prog.only_op trivial)).bind hf
  -- only a finalize and a prune take the archive lock, and each gives it back before it returns
  cases c with
  | host o => exact hsteady (Prog.only_op (hc o rfl))
  | finalizeError cur reason => exact finalizeError_purse
  | writeSyntheticClaim job fullName =>
    refine hsteady ((writeSyntheticClaim_only cfg job fullName).mono fun o ho => ?_)
    cases o with
    | fs o => trivial
    | sched | lima | hub => exact ho.elim
  | expireStaleCur maxAgeSecs =>
    refine hopen fun r => ?_
    rcases r with e | ⟨⟨⟩⟩
    · exact .ret fun _ hs => hs
    · refine (hsteady (p := fs .now) (Prog.only_op trivial)).bind fun now => ?_
      refine Monitor.Triple.whileSome (hsteady (Prog.only_op trivial)) (fun _ ent => ?_) fuel ()
      refine (hsteady (p := fs (.lstat _)) (Prog.only_op trivial)).bind fun r => ?_
      split
      · exact .ret fun _ hs => hs
      · split
        · exact finalizeError_purse.bind fun _ => .ret fun _ hs => hs
        · exact .ret fun _ hs => hs
  | pruneOldArchives retentionSecs =>
    have hdir : ∀ dir, purse.Triple k (· = ⟨b, false⟩) (pruneArchiveDir fuel dir retentionSecs)
        fun _ s => s = ⟨b, false⟩ := by
      intro dir
      refine hopen fun r => ?_
      rcases r with e | ⟨⟨⟩⟩
      · exact .ret fun _ hs => hs
      · exact (hsteady (p := fs .now) (Prog.only_op trivial)).bind fun now =>
          forEntries_purse fun name => pruneArchiveEntry_purse
    show purse.Triple k _ (if retentionSecs = 0 then _ else _) _
    split
    · exact .ret fun _ hs => hs
    · exact (hdir .done).bind fun _ => hdir .error
  | pruneSerialLogs retentionSecs => exact hsteady (pruneSerialLogs_steady retentionSecs)
  | pruneStaleJitBlobs maxAgeSecs => exact hsteady (pruneStaleJitBlobs_steady maxAgeSecs)
  | stop vm => exact hsteady (Lima.stopVm_only (fun _ => trivial) vm)
  | delete vm => exact hsteady (Lima.deleteVm_only (fun _ => trivial) cfg.codec vm)
  | listInstances => exact hsteady (Lima.listInstances_only (fun _ => trivial) cfg.codec)

/-- The calls of the passes, of functions. -/
def Call.steady : Call → Prop
  | .host o => Steady o
  | _ => True

theorem pass_purse {p : Proc α} (hp : p.Only Call.steady) :
    purse.Triple k (· = ⟨b, false⟩) (p.lower (Call.impl cfg fuel)) fun _ s => s = ⟨b, false⟩ := by
  refine Monitor.Triple.lower_only hp fun c hc => impl_purse ?_
  rintro o rfl
  exact hc

theorem steady_of_sweep {c : Call} (hc : c.ofSweep cfg) : Call.steady c := by
  cases c with
  | host o =>
    cases o with
    | fs | lima | hub => trivial
    | sched o =>
      cases o with
      | log => trivial
      | _ => exact hc.elim
  | _ => trivial

/-- A permit is given back. -/
theorem release_purse {f : Unit → Prog Resp α} {Q : α → Purse → Prop} (hk : isWorker k = false)
    (hf : purse.Triple k (· = .empty) (f ()) Q) :
    purse.Triple k (· = ⟨true, false⟩) (sched .release >>= f) Q := by
  refine .step (B := fun _ s => s = .empty) ?_ fun _ => hf
  rintro s r rfl
  exact ⟨_, ⟨⟨hk, rfl⟩, rfl⟩, rfl⟩

/-- A permit is handed to a worker. -/
theorem spawn_purse {cur : String} {event : WorkflowJob} {f : Tid → Prog Resp α}
    {Q : α → Purse → Prop} (hk : isWorker k = false)
    (hf : ∀ u, purse.Triple k (· = .empty) (f u) Q) :
    purse.Triple k (· = ⟨true, false⟩) (sched (.spawnJob cur event) >>= f) Q := by
  refine .step (B := fun _ s => s = .empty) ?_ hf
  rintro s r rfl
  exact ⟨_, ⟨⟨hk, rfl⟩, rfl⟩, rfl⟩

/-- A mint takes its permit with empty hands, and gives it back or to the
worker. -/
theorem mintJob_purse {repoFull : String} {job : JobStatus} (hk : isWorker k = false) :
    purse.Triple k (· = .empty) ((mintJob repoFull job).lower (Call.impl cfg fuel))
      fun _ s => s = .empty := by
  have hclaimed : purse.Triple k (· = ⟨true, false⟩)
      ((mintClaimed repoFull job).lower (Call.impl cfg fuel)) fun _ s => s = .empty := by
    refine Monitor.Triple.lowerBind (p := call (.writeSyntheticClaim job repoFull))
      (pass_purse (Prog.only_op trivial)) fun r => ?_
    split
    · exact spawn_purse hk fun _ => .ret fun _ hs => hs
    · exact release_purse (f := .ret) hk (.ret fun _ hs => hs)
  refine .step (B := fun got s => s = ⟨got, false⟩) ?_ fun got => ?_
  · rintro s got rfl
    exact ⟨_, ⟨⟨hk, rfl⟩, rfl⟩, by simp [Purse.after, Purse.empty]⟩
  cases got with
  | false => exact .ret fun _ hs => hs
  | true =>
    refine steady_step (o := .sched .isPaused) trivial fun paused => ?_
    cases paused with
    | true => exact release_purse hk (.ret fun _ hs => hs)
    | false =>
      show purse.Triple k _
        ((mintClaimed repoFull job >>= fun _ => pure true).lower (Call.impl cfg fuel)) _
      exact Monitor.Triple.lowerBind hclaimed fun _ => .ret fun _ hs => hs

theorem mintQueued_purse {repoFull : String} {live idle : List String} {queue : List JobStatus}
    (hk : isWorker k = false) :
    purse.Triple k (· = .empty)
      ((mintQueued cfg repoFull live idle queue).lower (Call.impl cfg fuel)) fun _ s => s = .empty := by
  induction queue with
  | nil => exact .ret fun _ hs => hs
  | cons job rest ih =>
    refine steady_step (o := .sched .isPaused) trivial fun paused => ?_
    cases paused with
    | true => exact .ret fun _ hs => hs
    | false =>
      show purse.Triple k _ (Prog.lower (Call.impl cfg fuel)
        (mintNext cfg repoFull live idle job (mintQueued cfg repoFull live idle rest))) _
      unfold mintNext
      split
      · exact ih
      · split
        · exact ih
        · refine Monitor.Triple.lowerBind (mintJob_purse hk) fun more => ?_
          cases more with
          | true => exact ih
          | false => exact .ret fun _ hs => hs

theorem reconcileRepos_purse {live repos : List String} (hk : isWorker k = false) :
    purse.Triple k (· = .empty) ((reconcileRepos cfg live repos).lower (Call.impl cfg fuel))
      fun _ s => s = .empty := by
  induction repos with
  | nil => exact .ret fun _ hs => hs
  | cons repoFull rest ih =>
    refine steady_step (o := .sched .isPaused) trivial fun paused => ?_
    cases paused with
    | true => exact .ret fun _ hs => hs
    | false =>
      show purse.Triple k _ (Prog.lower (Call.impl cfg fuel)
        (reconcileNext cfg live repoFull (reconcileRepos cfg live rest))) _
      unfold reconcileNext
      split
      · exact ih
      · rename_i owner repo _
        refine steady_step (o := .hub (.listRunners owner repo vmNamePrefix)) trivial fun r => ?_
        rcases r with e | runners
        · exact ih
        · refine steady_step (o := .hub (.listQueuedJobs owner repo)) trivial fun r => ?_
          rcases r with e | queued
          · exact ih
          · show purse.Triple k _ (Prog.lower (Call.impl cfg fuel)
              (mintQueued cfg repoFull live (idleRunners runners) queued >>= fun more =>
                if more then reconcileRepos cfg live rest else pure ())) _
            refine Monitor.Triple.lowerBind (mintQueued_purse hk) fun more => ?_
            cases more with
            | true => exact ih
            | false => exact .ret fun _ hs => hs

theorem awaitPermit_purse :
    purse.Triple (.permit name) (· = .empty) (awaitPermit name) (purse.post (.permit name)) := by
  have hloop : isWorker (.permit name) = false := rfl
  have hacquire : purse.Triple (.permit name) (· = .empty) acquirePermit
      fun got s => s = ⟨got, false⟩ := by
    refine .step (B := fun _ s => s = .empty) ?_ fun _ => ?_
    · rintro s r rfl
      exact ⟨_, ⟨⟨hloop, rfl⟩, rfl⟩, rfl⟩
    refine .step (B := fun _ s => s = ⟨true, false⟩) ?_ fun _ => ?_
    · rintro s r rfl
      exact ⟨_, ⟨⟨hloop, rfl⟩, rfl⟩, rfl⟩
    refine steady_step (o := .sched .isPaused) trivial fun paused => ?_
    cases paused with
    | true => exact release_purse hloop (.ret fun _ hs => hs)
    | false => exact .ret fun _ hs => hs
  refine hacquire.bind fun got => .ret fun s hs => ?_
  cases got <;> exact hs

theorem dispatchOne_purse :
    purse.Triple (.prepare name) (· = ⟨true, false⟩) (dispatchOne cfg name)
      (purse.post (.prepare name)) := by
  have hloop : isWorker (.prepare name) = false := rfl
  have hprepare : (prepare cfg name).Only Steady := (Listing.prepare_answers cfg name).mono fun o ho => by
    cases o with
    | fs => trivial
    | sched | lima | hub => exact ho.elim
  refine (steady_triple hprepare).bind fun prepared => ?_
  have hdispatch : purse.Triple (.prepare name) (· = ⟨true, false⟩) (dispatchPrepared prepared)
      fun _ s => s = .empty := by
    have hrelease : purse.Triple (.prepare name) (· = ⟨true, false⟩) (sched .release)
        fun _ s => s = .empty := release_purse (f := .ret) hloop (.ret fun _ hs => hs)
    cases prepared with
    | run cur event => exact spawn_purse hloop fun _ => .ret fun _ hs => hs
    | drop cur reason => exact finalizeDone_purse.bind fun _ => hrelease
    | reject cur reason => exact finalizeError_purse.bind fun _ => hrelease
    | skip => exact hrelease
  exact hdispatch.bind fun _ => .ret fun _ hs => hs

theorem worker_purse {cur : String} {event : WorkflowJob} :
    purse.Triple (.work cur event) (· = .empty) (worker cfg fuel cur event) fun _ s => s.lock = false := by
  have hrun : (runJob cfg fuel event).Only Steady := runJob_only.mono fun o ho => by
    cases o with
    | fs | lima | hub => trivial
    | sched => exact ho.elim
  refine (steady_triple hrun).bind fun outcome => ?_
  rcases outcome with e | ⟨⟨⟩⟩
  · exact finalizeError_purse.bind fun _ => .ret fun s hs => hs ▸ rfl
  · have hcheck : (completionCheck cfg event).Only Steady :=
      completionCheck_only fun _ _ _ => trivial
    exact ((steady_triple hcheck).bind fun _ => finalizeDone_purse.bind fun _ =>
      .ret fun s hs => hs ▸ rfl)

theorem sound_purse : purse.Sound (machine cfg fuel) where
  body k := by
    cases k with
    | dispatch =>
      have hrecv : (sched .recv).Only Steady := Prog.only_op trivial
      exact (steady_triple hrecv).bind fun _ => .ret fun _ hs => hs
    | permit name => exact awaitPermit_purse
    | prepare name => exact dispatchOne_purse
    | reconcile =>
      refine steady_step (o := .sched .sleep) trivial fun _ => ?_
      refine steady_step (o := .sched .isPaused) trivial fun paused => ?_
      cases paused with
      | true => exact .ret fun _ hs => hs
      | false =>
        have hinner : purse.Triple .reconcile (· = .empty)
            ((reconcileInner cfg fuel).lower (Call.impl cfg fuel)) fun _ s => s = .empty := by
          refine Monitor.Triple.lowerBind
            (pass_purse (liveVmMapFromCur_only fun c hc =>
              steady_of_sweep (show c.ofSweep cfg from hc.ofVmPass.ofSweep))) fun claims => ?_
          rcases claims with e | claims
          · exact .ret fun _ hs => hs
          · exact Monitor.Triple.lowerBind (reconcileRepos_purse rfl) fun _ => .ret fun _ hs => hs
        exact hinner.bind fun _ => .ret fun _ hs => hs
    | gc =>
      refine steady_step (o := .sched .sleep) trivial fun _ => ?_
      exact (pass_purse (sweepInner_calls.mono fun _ => steady_of_sweep)).bind fun _ =>
        .ret fun _ hs => hs
    | work cur event => exact worker_purse.bind fun _ => .ret fun _ hs => hs
  forks {o r u k} h := by
    cases o with
    | sched o =>
      cases o with
      | spawnJob cur event =>
        cases h
        rfl
      | _ => cases h
    | _ => cases h
  crash h := by cases h

end Tasks

theorem start_purse {cfg : Config} {fuel : ℕ} {c : Pool} (h₀ : Daemon.Start cfg fuel c) :
    purse.Start (machine cfg fuel) c where
  trace := h₀.trace
  fresh t k p ht := by
    rw [h₀.threads] at ht
    rw [h₀.next]
    unfold Daemon.loops at ht
    split at ht <;> cases ht
    · exact ⟨by decide, rfl, rfl⟩
    · exact ⟨by decide, rfl, rfl⟩
    · exact ⟨by decide, rfl, rfl⟩

/-! ## Who holds what -/

/-- What these calls leave in the hands. -/
def hands (ρ : Interleave.History Resp) : Purse := ρ.foldr (fun e s => s.after e) .empty

@[simp] theorem hands_cons {e : Event Resp} {ρ : Interleave.History Resp} :
    hands (e :: ρ) = (hands ρ).after e := rfl

section Ledger

variable {cfg : Config} {fuel : ℕ} {c₀ c c' : Pool} {Meets : Daemon.State → Line → Prop}
variable {t u : Tid} {k : Task} {o : Op} {r : Resp o} {w w' : World}

/-- Where the monitor is, is a matter of the calls. -/
theorem hands_of_at {τ : Daemon.History} {s : Purse} (h : purse.At t τ s) :
    s = hands (Entry.own t τ) := by
  refine h.induction (I := fun ρ s => s = hands ρ) rfl fun k ρ s e s' hs hn => ?_
  rw [hands_cons, ← hs]
  exact hn.2

/-- Only what takes and gives a permit changes whether there is one. -/
theorem permit_after {s : Purse} {e : Event Resp} (hacq : Pause.acquires e = false)
    (hparts : Pause.parts e = false) : (s.after e).permit = s.permit := by
  obtain ⟨o, r⟩ := e
  cases o with
  | sched o =>
    cases o with
    | tryAcquire =>
      obtain rfl : r = false := hacq
      exact Bool.or_false _
    | acquire => cases hacq
    | release | spawnJob => cases hparts
    | _ => rfl
  | _ => rfl

/-- A permit is taken with empty hands. -/
theorem allows_of_acquires {s : Purse} {worker : Bool} (h : s.allows worker o)
    (hacq : Pause.acquires ⟨o, r⟩ = true) : worker = false ∧ s = .empty := by
  cases o with
  | sched o =>
    cases o with
    | acquire | tryAcquire => exact h
    | _ => cases hacq
  | _ => cases hacq

/-- And is in the hands then. -/
theorem permit_of_acquires {s : Purse} (hacq : Pause.acquires ⟨o, r⟩ = true) :
    (s.after ⟨o, r⟩).permit = true := by
  cases o with
  | sched o =>
    cases o with
    | acquire => rfl
    | tryAcquire =>
      obtain rfl : r = true := hacq
      exact Bool.or_true _
    | _ => cases hacq
  | _ => cases hacq

/-- Only taking and giving back the lock changes whether it is held. -/
theorem lock_after {s : Purse} (hlock : o ≠ .sched .unlockArchive) (hs : s.lock = true) :
    (s.after ⟨o, r⟩).lock = true := by
  cases o with
  | sched o =>
    cases o with
    | unlockArchive => exact absurd rfl hlock
    | lockArchive => rfl
    | _ => exact hs
  | _ => exact hs

/-- The lock is taken by a call, or was held and not given back. -/
theorem lock_of_step {C : Codec} {q : Oracle o} (h : step C t o q w = some (r, w'))
    (hu : w'.sched.archiveLock = some u) :
    (u = t ∧ o = .sched .lockArchive) ∨
      w.sched.archiveLock = some u ∧ ¬ (u = t ∧ o = .sched .unlockArchive) := by
  cases o with
  | sched o =>
    obtain ⟨s, hs, rfl⟩ := step_sched h
    cases o with
    | lockArchive =>
      simp only [Sched.step] at hs
      split at hs <;> cases hs
      cases hu
      exact .inl ⟨rfl, rfl⟩
    | unlockArchive =>
      cases hs
      right
      have hu : (if w.sched.archiveLock = some t then { w.sched with archiveLock := none }
        else w.sched).archiveLock = some u := hu
      split at hu
      · cases hu
      · rename_i hnot
        have hheld : w.sched.archiveLock = some u := hu
        refine ⟨hheld, ?_⟩
        rintro ⟨rfl, -⟩
        exact hnot hheld
    | acquire | waitUnpaused =>
      simp only [Sched.step] at hs
      split at hs <;> cases hs
      exact .inr ⟨hu, by simp⟩
    | tryAcquire =>
      simp only [Sched.step] at hs
      split at hs <;> cases hs <;> exact .inr ⟨hu, by simp⟩
    | _ =>
      cases hs
      exact .inr ⟨hu, by simp⟩
  | fs o | lima o | hub o =>
    obtain ⟨⟨r', s⟩, hs, heq⟩ := Option.map_eq_some_iff.mp h
    cases heq
    exact .inr ⟨hu, by simp⟩

/-- Nobody holds a permit twice; whoever holds one is there, a worker or a
loop with the permit in its hands; whoever holds the lock is there, with
the lock in its hands. -/
structure Ledger (cfg : Config) (c : Pool) : Prop where
  capacity : c.world.sched.capacity = cfg.maxConcurrency
  nodup : c.world.sched.holders.Nodup
  permit : ∀ u ∈ c.world.sched.holders, c.threads u ≠ none ∧
    (working u c.trace ≠ none ∨ (hands (Entry.own u c.trace)).permit = true)
  lock : ∀ u, c.world.sched.archiveLock = some u →
    c.threads u ≠ none ∧ (hands (Entry.own u c.trace)).lock = true

/-- A thread that was there is there after a call. -/
theorem threadsCalled_ne_none {th : Tid → Option (Task × Prog Resp (Option Task))}
    {f : Resp o → Prog Resp (Option Task)}
    (h : th u ≠ none ∨ u = t ∨ ∃ k', forks o r = some (u, k')) :
    (machine cfg fuel).threadsCalled th t k f r u ≠ none := by
  have hcaller : ∀ v, th v ≠ none ∨ v = t → Function.update th t (some (k, f r)) v ≠ none := by
    intro v hv
    by_cases hvt : v = t
    · subst hvt
      simp
    · rw [Function.update_of_ne hvt]
      exact hv.resolve_right hvt
  cases hf : forks o r with
  | none =>
    have hf' : (machine cfg fuel).forks o r = none := hf
    simp only [Machine.threadsCalled, hf']
    exact hcaller u (h.imp_right fun h => h.resolve_right (by simp [hf]))
  | some vk =>
    obtain ⟨v, k'⟩ := vk
    have hf' : (machine cfg fuel).forks o r = some (v, k') := hf
    simp only [Machine.threadsCalled, hf']
    by_cases huv : u = v
    · subst huv
      simp
    · rw [Function.update_of_ne huv]
      refine hcaller u (h.imp_right fun h => h.resolve_right ?_)
      rintro ⟨k'', hk⟩
      rw [hf] at hk
      cases hk
      exact huv rfl

/-- What is known of the caller where it makes a call. -/
structure Caller (c : Pool) (t : Tid) (k : Task) (o : Op) : Prop where
  allowed : (hands (Entry.own t c.trace)).allows (isWorker k) o
  job : working t c.trace = Ownership.job k
  young : ∀ u, c.threads u ≠ none → u < c.next

/-- Who is no worker has empty hands where it takes a permit, and so is
not among the holders. -/
theorem Ledger.not_mem (h : Ledger cfg c) (hc : Caller c t k o)
    (ho : isWorker k = false ∧ hands (Entry.own t c.trace) = .empty) : t ∉ c.world.sched.holders := by
  intro hmem
  rcases (h.permit t hmem).2 with hw | hp
  · rw [hc.job] at hw
    cases k with
    | work => cases ho.1
    | _ => exact hw rfl
  · rw [ho.2] at hp
    cases hp

theorem Ledger.called (h : Ledger cfg c) (hc : Caller c t k o) {f : Resp o → Prog Resp (Option Task)}
    {q : Oracle o} (hq : step cfg.codec t o q c.world = some (r, w'))
    (hnew : ∀ u k', forks o r = some (u, k') → c.next ≤ u) :
    Ledger cfg {
      toShared := c.toShared.called (machine cfg fuel) t k o r w'
      threads := (machine cfg fuel).threadsCalled c.threads t k f r } := by
  -- a thread that was there is neither new nor gone
  have hold : ∀ u, c.threads u ≠ none →
      (machine cfg fuel).threadsCalled c.threads t k f r u ≠ none ∧
        working u (.did t k o r c.world :: c.trace) = working u c.trace := by
    intro u hu
    refine ⟨threadsCalled_ne_none (.inl hu), Ownership.working_did_of_ne fun v k' hf hvu => ?_⟩
    exact Nat.not_le.mpr (hc.young u hu) (hvu ▸ hnew v k' hf)
  have hself : Entry.own t (.did t k o r c.world :: c.trace) = ⟨o, r⟩ :: Entry.own t c.trace :=
    Entry.own_did
  have hkeep : ∀ u ∈ c.world.sched.holders, u ≠ t →
      (machine cfg fuel).threadsCalled c.threads t k f r u ≠ none ∧
        (working u (.did t k o r c.world :: c.trace) ≠ none ∨
          (hands (Entry.own u (.did t k o r c.world :: c.trace))).permit = true) := by
    intro u hu hut
    obtain ⟨hthread, hheld⟩ := h.permit u hu
    obtain ⟨hthread', hworking⟩ := hold u hthread
    rw [hworking, Entry.own_did_of_ne (Ne.symm hut)]
    exact ⟨hthread', hheld⟩
  obtain ⟨hcap, hd⟩ := Ownership.deals_of_step hq
  have hallowed := hc.allowed
  refine ⟨hcap.trans h.capacity, ?_, fun u hu => ?_, fun u hu => ?_⟩
  · show w'.sched.holders.Nodup
    generalize w'.sched.holders = holders at hd
    cases hd with
    | took hacq _ =>
      exact List.nodup_cons.mpr ⟨h.not_mem hc (allows_of_acquires hallowed hacq), h.nodup⟩
    | released => exact h.nodup.erase t
    | spawned cur event v =>
      refine List.nodup_cons.mpr ⟨fun hmem => ?_, h.nodup.erase t⟩
      have hthread := (h.permit v (List.mem_of_mem_erase hmem)).1
      exact Nat.not_le.mpr (hc.young v hthread) (hnew v _ rfl)
    | still => exact h.nodup
  · change u ∈ w'.sched.holders at hu
    show (machine cfg fuel).threadsCalled c.threads t k f r u ≠ none ∧ _
    generalize w'.sched.holders = holders at hd hu
    cases hd with
    | took hacq _ =>
      rcases List.mem_cons.mp hu with rfl | hmem
      · refine ⟨threadsCalled_ne_none (.inr (.inl rfl)), .inr ?_⟩
        simp only [Shared.called, hself, hands_cons]
        exact permit_of_acquires hacq
      · refine hkeep u hmem ?_
        rintro rfl
        exact h.not_mem hc (allows_of_acquires hallowed hacq) hmem
    | released =>
      obtain ⟨hut, hu⟩ := h.nodup.mem_erase_iff.mp hu
      exact hkeep u hu hut
    | spawned cur event v =>
      rcases List.mem_cons.mp hu with rfl | hu
      · refine ⟨threadsCalled_ne_none (.inr (.inr ⟨_, rfl⟩)), .inl ?_⟩
        simp [Shared.called, working]
      · obtain ⟨hut, hu⟩ := h.nodup.mem_erase_iff.mp hu
        exact hkeep u hu hut
    | still hacq hparts =>
      by_cases hut : u = t
      · subst hut
        obtain ⟨hthread, hheld⟩ := h.permit u hu
        obtain ⟨hthread', hworking⟩ := hold u hthread
        refine ⟨hthread', hheld.imp (fun hw => ?_) fun hp => ?_⟩
        · exact hworking ▸ hw
        · simp only [Shared.called, hself, hands_cons]
          rwa [permit_after hacq hparts]
      · exact hkeep u hu hut
  · show (machine cfg fuel).threadsCalled c.threads t k f r u ≠ none ∧ _
    rcases lock_of_step hq hu with ⟨rfl, rfl⟩ | ⟨hlock, hnot⟩
    · refine ⟨threadsCalled_ne_none (.inr (.inl rfl)), ?_⟩
      simp only [Shared.called, hself, hands_cons]
      rfl
    · obtain ⟨hthread, hheld⟩ := h.lock u hlock
      refine ⟨(hold u hthread).1, ?_⟩
      by_cases hut : u = t
      · subst hut
        simp only [Shared.called, hself, hands_cons]
        exact lock_after (fun ho => hnot ⟨rfl, ho⟩) hheld
      · simp only [Shared.called, Entry.own_did_of_ne (Ne.symm hut)]
        exact hheld

/-- Every step keeps the ledger. -/
theorem Ledger.step {e : Option Line} (h : Ledger cfg c) (hholds : purse.Holds c)
    (hstaffed : Ownership.Staffed c) (hs : (machine cfg fuel).Step c e c') : Ledger cfg c' := by
  cases hs with
  | @call t k o f q r w hat hq hnew =>
    obtain ⟨hlt, s, hst, hobeys⟩ := hholds.thread t k _ hat
    obtain ⟨s', hn, -⟩ := hobeys r
    refine h.called ⟨hands_of_at hst ▸ hn.1, (hstaffed.stands t k _ hat).job, fun u hu => ?_⟩ hq hnew
    obtain ⟨⟨k', p⟩, hu⟩ := Option.ne_none_iff_exists'.mp hu
    exact (hholds.thread u k' p hu).1
  | @again t k k' hat =>
    have hkeep : ∀ u, c.threads u ≠ none →
        Function.update c.threads t (some (k', (machine cfg fuel).body k')) u ≠ none := by
      intro u hu
      by_cases hut : u = t
      · subst hut
        simp
      · rwa [Function.update_of_ne hut]
    exact ⟨h.capacity, h.nodup, fun u hu => ⟨hkeep u (h.permit u hu).1, (h.permit u hu).2⟩,
      fun u hu => ⟨hkeep u (h.lock u hu).1, (h.lock u hu).2⟩⟩
  -- an end drops the permit and the lock of the thread that ends, and nobody else's
  | @exit t k hat =>
    refine ⟨h.capacity, h.nodup.erase t, fun u hu => ?_, fun u hu => ?_⟩
    · obtain ⟨hut, hu⟩ := h.nodup.mem_erase_iff.mp hu
      refine ⟨?_, ?_⟩
      · show Function.update c.threads t none u ≠ none
        rw [Function.update_of_ne hut]
        exact (h.permit u hu).1
      · have hworking : working u (.ended t k c.world :: c.trace) = working u c.trace :=
          if_neg (Ne.symm hut)
        simp only [Shared.ended, hworking, Entry.own_ended]
        exact (h.permit u hu).2
    · change (if c.world.sched.archiveLock = some t then none else c.world.sched.archiveLock) =
        some u at hu
      split at hu
      · cases hu
      · rename_i hnot
        have hut : u ≠ t := by
          rintro rfl
          exact hnot hu
        refine ⟨?_, (h.lock u hu).2⟩
        show Function.update c.threads t none u ≠ none
        rw [Function.update_of_ne hut]
        exact (h.lock u hu).1
  | crash hat hw => cases hw
  | @env e w hw =>
    cases hw
    cases e <;> exact ⟨h.capacity, h.nodup, h.permit, h.lock⟩

theorem ledger_run (h₀ : Daemon.Start cfg fuel c₀) (hr : (machine cfg fuel).Run Meets c₀ c) :
    Ledger cfg c := by
  induction hr with
  | start =>
    refine ⟨h₀.capacity, ?_, fun u hu => ?_, fun u hu => ?_⟩
    · rw [h₀.holders]
      exact List.nodup_nil
    · rw [h₀.holders] at hu
      cases hu
    · rw [h₀.archiveLock] at hu
      cases hu
  | step hr hs _ ih =>
    exact ih.step (sound_purse.run (start_purse h₀) hr) (Ownership.staffed_run h₀ hr) hs

/-! ## Who can move -/

/-- The call waits for nothing. -/
def Ready : Op → Prop
  | .sched .acquire | .sched .waitUnpaused | .sched .lockArchive => False
  | _ => True

/-- A call on files always has an answer: if need be, that it failed. -/
theorem exists_files (t : Tid) (o : Files.Op Dir String) (s : FileState) :
    ∃ q x, Files.step t o q s = some x := by
  refine ⟨⟨true, 0, none⟩, ?_⟩
  cases o with
  | nextEntry =>
    simp only [Files.step, if_true]
    split <;> exact ⟨_, rfl⟩
  | _ => exact ⟨_, rfl⟩

/-- A call that waits for nothing has an answer, and a thread it starts
may be the next. -/
theorem exists_step {C : Codec} (ho : Ready o) (t n : Tid) (w : World) :
    ∃ q r w', step C t o q w = some (r, w') ∧ ∀ u k', forks o r = some (u, k') → n ≤ u := by
  have hlima : ∀ {o : Lima.Op} {q : Lima.Oracle} {x}, Lima.step C o q w.lima = some x →
      step C t (.lima o) q w = some (x.1, { w with lima := x.2 }) := fun h => by simp [step, h]
  have hhub : ∀ {o : Hub.Op} {q : Hub.Oracle} {x}, Hub.step o q w.hub = some x →
      step C t (.hub o) q w = some (x.1, { w with hub := x.2 }) := fun h => by simp [step, h]
  have hsched : ∀ {o : Sched.Op} {q : Sched.Oracle} {x}, Sched.step t o q w.sched = some x →
      step C t (.sched o) q w = some (x.1, { w with sched := x.2 }) := fun h => by simp [step, h]
  -- the outside can always answer with a failure
  cases o with
  | fs o =>
    obtain ⟨q, x, hx⟩ := exists_files t o w.fs
    exact ⟨q, x.1, { w with fs := x.2 }, by simp [step, hx], by simp [forks]⟩
  | lima o =>
    have hfail : ∃ x, Lima.step C o ⟨.error "", false, true, [], "", none, none⟩ w.lima = some x := by
      cases o with
      | start name =>
        simp only [Lima.step]
        split <;> exact ⟨_, rfl⟩
      | readYaml dir =>
        simp only [Lima.step]
        split <;> exact ⟨_, rfl⟩
      | _ => exact ⟨_, rfl⟩
    obtain ⟨x, hx⟩ := hfail
    exact ⟨_, _, _, hlima hx, by simp [forks]⟩
  | hub o =>
    have hfail : ∃ x, Hub.step o ⟨some "", false, "", [], none, none, []⟩ w.hub = some x := by
      cases o <;> exact ⟨_, rfl⟩
    obtain ⟨x, hx⟩ := hfail
    exact ⟨_, _, _, hhub hx, by simp [forks]⟩
  | sched o =>
    have hnew : ∃ x : Sched.Resp o × Sched.State, Sched.step t o ⟨"", n⟩ w.sched = some x ∧
        ∀ u k', forks (.sched o) x.1 = some (u, k') → n ≤ u := by
      cases o with
      | tryAcquire =>
        simp only [Sched.step]
        split <;> exact ⟨_, rfl, by simp [forks]⟩
      | spawnJob cur event =>
        refine ⟨_, rfl, ?_⟩
        rintro u k' hf
        cases hf
        exact le_refl _
      | acquire | waitUnpaused | lockArchive => exact ho.elim
      | _ => exact ⟨_, rfl, by simp [forks]⟩
    obtain ⟨x, hx, hn⟩ := hnew
    exact ⟨_, _, _, hsched hx, hn⟩

end Ledger

/-! ## The ladder -/

/-- What threads wait for one another for. -/
inductive Resource where
  | permit
  | lock
  deriving DecidableEq

/-- The lower rung first. -/
def Resource.rank : Resource → ℕ
  | .permit => 0
  | .lock => 1

/-- The thread's next call. -/
def Calls (c : Pool) (t : Tid) (o : Op) : Prop :=
  ∃ k f, c.threads t = some (k, .call o f)

/-- The thread has to wait for the resource. -/
def Waits (c : Pool) (t : Tid) : Resource → Prop
  | .permit => Calls c t (.sched .acquire) ∧ c.world.sched.capacity ≤ c.world.sched.holders.length
  | .lock => Calls c t (.sched .lockArchive) ∧ c.world.sched.archiveLock ≠ none

/-- The thread has the resource, or one of it. -/
def Holds (c : Pool) (t : Tid) : Resource → Prop
  | .permit => t ∈ c.world.sched.holders
  | .lock => c.world.sched.archiveLock = some t

/-- The dispatcher has to wait for the pause to end. -/
def AtPause (c : Pool) (t : Tid) : Prop :=
  Calls c t (.sched .waitUnpaused) ∧ c.world.sched.paused = true

section Ladder

variable {cfg : Config} {fuel : ℕ} {c₀ c : Pool} {Meets : Daemon.State → Line → Prop}
variable {t u : Tid} {k : Task} {p : Prog Resp (Option Task)} {o : Op}

/-- What is known of a thread at a call. -/
theorem caller_of_run (h₀ : Daemon.Start cfg fuel c₀) (hr : (machine cfg fuel).Run Meets c₀ c)
    {f : Resp o → Prog Resp (Option Task)} (hat : c.threads t = some (k, .call o f)) (r : Resp o) :
    Caller c t k o := by
  have hholds := sound_purse.run (start_purse h₀) hr
  obtain ⟨hlt, s, hst, hobeys⟩ := hholds.thread t k _ hat
  obtain ⟨s', hn, -⟩ := hobeys r
  refine ⟨hands_of_at hst ▸ hn.1, ((Ownership.staffed_run h₀ hr).stands t k _ hat).job, fun u hu => ?_⟩
  obtain ⟨⟨k', p⟩, hu⟩ := Option.ne_none_iff_exists'.mp hu
  exact (hholds.thread u k' p hu).1

/-- A thread that calls for nothing it would have to wait for can move. -/
theorem able_of_ready {f : Resp o → Prog Resp (Option Task)} (ho : Ready o)
    (hat : c.threads t = some (k, .call o f)) : (machine cfg fuel).Able c t := by
  obtain ⟨q, r, w', hs, hnew⟩ := exists_step (C := cfg.codec) ho t c.next c.world
  exact Machine.able_of_call hat (Function.update (Answers.oracle {}) o q) (Function.update_self ..)
    hs hnew

/-- Nor has a thread to wait for what is there to be had. -/
theorem able_of_sched {o : Sched.Op} {f : Resp (.sched o) → Prog Resp (Option Task)}
    {r : Sched.Resp o} {s : Sched.State} (hat : c.threads t = some (k, .call (.sched o) f))
    (hs : Sched.step t o ⟨"", 0⟩ c.world.sched = some (r, s)) (hf : forks (.sched o) r = none) :
    (machine cfg fuel).Able c t := by
  have hstep : step cfg.codec t (.sched o) ⟨"", 0⟩ c.world = some (r, { c.world with sched := s }) := by
    simp [step, hs]
  refine Machine.able_of_call hat (Answers.oracle { sched := ⟨"", 0⟩ }) rfl hstep fun u k' hu => ?_
  have hu : forks (.sched o) r = some (u, k') := hu
  rw [hf] at hu
  cases hu

/-- Every thread can move, or waits: for the pause to end, for a permit or
for the lock. -/
theorem able_or_waits (hat : c.threads t = some (k, p)) :
    (machine cfg fuel).Able c t ∨ AtPause c t ∨ ∃ r, Waits c t r := by
  cases p with
  | ret next => exact .inl (Machine.able_of_ret hat)
  | call o f =>
    by_cases hready : Ready o
    · exact .inl (able_of_ready hready hat)
    cases o with
    | sched o =>
      cases o with
      | acquire =>
        by_cases hroom : c.world.sched.holders.length < c.world.sched.capacity
        · exact .inl (able_of_sched hat (if_pos hroom) rfl)
        · exact .inr (.inr ⟨.permit, ⟨k, f, hat⟩, by omega⟩)
      | waitUnpaused =>
        cases hpaused : c.world.sched.paused with
        | true => exact .inr (.inl ⟨⟨k, f, hat⟩, hpaused⟩)
        | false => exact .inl (able_of_sched hat (if_neg (by simp [hpaused])) rfl)
      | lockArchive =>
        by_cases hfree : c.world.sched.archiveLock = none
        · exact .inl (able_of_sched hat (if_pos hfree) rfl)
        · exact .inr (.inr ⟨.lock, ⟨k, f, hat⟩, hfree⟩)
      | _ => exact absurd trivial hready
    | fs | lima | hub => exact absurd trivial hready

/-- Who takes a permit, or waits for the pause to end, holds nothing. -/
theorem not_holds (h : Ledger cfg c) (hc : Caller c t k o)
    (ho : isWorker k = false ∧ hands (Entry.own t c.trace) = .empty) (r : Resource) :
    ¬ Holds c t r := by
  cases r with
  | permit => exact h.not_mem hc ho
  | lock =>
    intro hheld
    have hlock := (h.lock t hheld).2
    rw [ho.2] at hlock
    cases hlock

theorem ladder (hcap : 0 < cfg.maxConcurrency) (h₀ : Daemon.Start cfg fuel c₀)
    (hr : (machine cfg fuel).Run Meets c₀ c) :
    Ladder (fun t => c.threads t ≠ none ∧ ¬ AtPause c t) ((machine cfg fuel).Able c) (Waits c)
      (Holds c) Resource.rank 2 := by
  have hledger := ledger_run h₀ hr
  -- a thread moves, waits at the pause, or waits for a held resource; a holder waits for none
  -- of its own rank or below
  refine ⟨fun t ⟨hthread, hpause⟩ => ?_, fun t r hw => ?_, fun u r hh => ?_, fun u r r' hh hw => ?_,
    fun r => by cases r <;> decide⟩
  · obtain ⟨⟨k, p⟩, hat⟩ := Option.ne_none_iff_exists'.mp hthread
    exact (able_or_waits hat).imp_right fun h => h.resolve_left hpause
  · cases r with
    | permit =>
      have hpos : 0 < c.world.sched.holders.length := by
        have := hledger.capacity
        have := hw.2
        omega
      obtain ⟨u, hu⟩ := List.exists_mem_of_length_pos hpos
      exact ⟨u, hu⟩
    | lock => exact Option.ne_none_iff_exists'.mp hw.2
  · have hthread : c.threads u ≠ none := by
      cases r with
      | permit => exact (hledger.permit u hh).1
      | lock => exact (hledger.lock u hh).1
    refine ⟨hthread, ?_⟩
    rintro ⟨⟨k, f, hat⟩, -⟩
    have hc := caller_of_run h₀ hr hat ()
    exact not_holds hledger hc hc.allowed r hh
  · cases r' with
    | permit =>
      obtain ⟨⟨k, f, hat⟩, -⟩ := hw
      have hc := caller_of_run h₀ hr hat ()
      exact absurd hh (not_holds hledger hc hc.allowed r)
    | lock =>
      cases r with
      | permit => exact Nat.zero_lt_one
      | lock =>
        obtain ⟨⟨k, f, hat⟩, -⟩ := hw
        have hfree : (hands (Entry.own u c.trace)).lock = false := (caller_of_run h₀ hr hat ()).allowed
        have hheld := (hledger.lock u hh).2
        rw [hfree] at hheld
        cases hheld

/-- **No deadlock.** In every reachable state each thread waits, if it
waits at all, for the pause to end, and holds nothing then that another
could wait for; or else on a thread that can move, through others that
hold what is waited for. No thread waits on itself. -/
theorem no_deadlock (hcap : 0 < cfg.maxConcurrency) (h₀ : Daemon.Start cfg fuel c₀)
    (hr : (machine cfg fuel).Run Meets c₀ c) (hat : c.threads t = some (k, p)) :
    ((AtPause c t ∧ ∀ r, ¬ Holds c t r) ∨
      ∃ u, Relation.ReflTransGen (WaitsOn (Waits c) (Holds c)) t u ∧ (machine cfg fuel).Able c u) ∧
    ¬ Relation.TransGen (WaitsOn (Waits c) (Holds c)) t t := by
  have hladder := ladder hcap h₀ hr
  refine ⟨?_, hladder.irrefl⟩
  by_cases hpause : AtPause c t
  · obtain ⟨k', f, hat'⟩ := hpause.1
    have hc := caller_of_run h₀ hr hat' ()
    exact .inl ⟨hpause, not_holds (ledger_run h₀ hr) hc hc.allowed⟩
  · exact .inr (hladder.resolves ⟨by rw [hat]; simp, hpause⟩)

/-- The dispatcher is sent a name, gets a permit and turns to the file. -/
def turn (name : String) (n : ℕ) : List (machine sampleConfig 1).Move :=
  let move := Machine.Move.call (M := machine sampleConfig 1) dispatcher
    (Answers.oracle { sched := ⟨name, 3⟩ })
  [move, .again dispatcher] ++ .replicate 3 move ++ [.again dispatcher] ++ .replicate n move

/-- The dispatcher's next call, and who holds the lock. -/
def atLock (c : Pool) : Option (Op × Option Tid) :=
  match c.threads dispatcher with
  | some (_, .call o _) => some (o, c.world.sched.archiveLock)
  | _ => none

theorem atLock_sample :
    ((machine sampleConfig 1).follow (fun _ _ => true)
      (Life.calls reconciler 21 "x\n" ++ Life.calls 3 19 "x\n" ++ turn "43.job" 12)
      (Pause.samplePool (.sample [(⟨.new, "43.job"⟩, ⟨.regular, [], 0⟩)] 0))).map atLock =
      some (some (.sched .lockArchive, some 3)) := by
  decide +kernel

/-- The dispatcher has a claim to archive, and waits for the worker that is
at its own. -/
theorem no_deadlock_sample :
    ∃ c, (machine sampleConfig 1).Run (fun _ _ => True)
        (Pause.samplePool (.sample [(⟨.new, "43.job"⟩, ⟨.regular, [], 0⟩)] 0)) c ∧
      Waits c dispatcher .lock ∧ c.world.sched.archiveLock = some 3 ∧
      ((AtPause c dispatcher ∧ ∀ r, ¬ Holds c dispatcher r) ∨
        ∃ u, Relation.ReflTransGen (WaitsOn (Waits c) (Holds c)) dispatcher u ∧
          (machine sampleConfig 1).Able c u) ∧
      ¬ Relation.TransGen (WaitsOn (Waits c) (Holds c)) dispatcher dispatcher := by
  obtain ⟨c, hc, hlast⟩ := Option.map_eq_some_iff.mp atLock_sample
  have hr : (machine sampleConfig 1).Run (fun _ _ => True) _ c :=
    (Machine.run_of_follow hc).mono fun _ _ _ => trivial
  unfold atLock at hlast
  split at hlast
  · rename_i k o f hat
    simp only [Option.some.injEq, Prod.mk.injEq] at hlast
    obtain ⟨rfl, hlock⟩ := hlast
    exact ⟨c, hr, ⟨⟨k, f, hat⟩, by rw [hlock]; simp⟩, hlock,
      no_deadlock (by decide) (Pause.samplePool_start rfl rfl rfl rfl) hr hat⟩
  · cases hlast

end Ladder

end Progress

end GhaConsumer

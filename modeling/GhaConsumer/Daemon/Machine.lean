import GhaConsumer.Gc.Reconcile
import GhaConsumer.Host.Sample
import GhaConsumer.Interleave.Local
import GhaConsumer.Supervisor.Model

/-!
# The daemon

`supervisor::run` as a pool: the dispatch loop, the reconciler and the GC,
which go on for ever, and a worker for each job spawned, interleaved call
by call with one another and with the outside.
-/

namespace GhaConsumer

namespace Daemon

open Interleave

inductive Task where
  /-- The dispatcher waiting for a file name. -/
  | dispatch
  /-- The dispatcher waiting for a permit, with a file name. -/
  | permit (name : String)
  /-- The dispatcher at a file, with a permit. -/
  | prepare (name : String)
  | reconcile
  | gc
  /-- The worker of a claim. -/
  | work (cur : String) (event : WorkflowJob)
  deriving DecidableEq, Repr

variable (cfg : Config) (fuel : ℕ)

def receive : Prog Resp (Option Task) := do
  let name ← sched .recv
  pure (some (.permit name))

def awaitPermit (name : String) : Prog Resp (Option Task) := do
  let permit ← acquirePermit
  pure (some (if permit then .prepare name else .permit name))

def dispatchOne (name : String) : Prog Resp (Option Task) := do
  let prepared ← prepare cfg name
  dispatchPrepared prepared
  pure (some .dispatch)

/-- A tick of the reconciler's interval. -/
def reconcileTick : Prog Resp (Option Task) := do
  sched .sleep
  let paused ← sched .isPaused
  if paused then pure (some .reconcile)
  else
    let _ ← (reconcileInner cfg fuel).lower (Call.impl cfg fuel)
    pure (some .reconcile)

/-- A tick of the GC's interval, which begins a sweep. -/
def gcTick : Prog Resp (Option Task) := do
  sched .sleep
  let _ ← (sweepInner cfg fuel).lower (Call.impl cfg fuel)
  pure (some .gc)

def body : Task → Prog Resp (Option Task)
  | .dispatch => receive
  | .permit name => awaitPermit name
  | .prepare name => dispatchOne cfg name
  | .reconcile => reconcileTick cfg fuel
  | .gc => gcTick cfg fuel
  | .work cur event => do
    worker cfg fuel cur event
    pure none

/-- The worker a call starts. -/
def forks : (o : Op) → Resp o → Option (Tid × Task)
  | .sched (.spawnJob cur event), u => some (u, .work cur event)
  | _, _ => none

def machine : Machine Resp Task World where
  body := body cfg fuel
  Oracle := Oracle
  step := step cfg.codec
  forks := forks
  Env := Env
  env e w := some (e.step w)
  leave := World.leave
  crash _ _ := none

abbrev State := Shared Resp Task World

/-- A line of the history. -/
abbrev Line := Entry Resp Task World

abbrev History := List Line

abbrev Pool := Interleave.Config Resp Task World

/-- The threads of the loops. -/
abbrev dispatcher : Tid := 0

abbrev reconciler : Tid := 1

abbrev collector : Tid := 2

/-- The loops at their start, and no worker yet. -/
def loops : Tid → Option (Task × Prog Resp (Option Task))
  | 0 => some (.dispatch, body cfg fuel .dispatch)
  | 1 => some (.reconcile, body cfg fuel .reconcile)
  | 2 => some (.gc, body cfg fuel .gc)
  | _ => none

/-- The daemon has just started: whatever files, VMs and runners there
are, all permits are free and nothing is being read. -/
structure Start (c : Pool) : Prop where
  trace : c.trace = []
  next : c.next = 3
  threads : c.threads = loops cfg fuel
  capacity : c.world.sched.capacity = cfg.maxConcurrency
  holders : c.world.sched.holders = []
  archiveLock : c.world.sched.archiveLock = none
  scan : c.world.fs.scan = fun _ => none

/-- Threads that start with what their tasks count on. -/
theorem Start.habits {cfg : Config} {fuel : ℕ} {c : Pool} {H : Habits (machine cfg fuel)}
    (h₀ : Start cfg fuel c) (hdispatch : H.pre dispatcher .dispatch [])
    (hreconcile : H.pre reconciler .reconcile []) (hgc : H.pre collector .gc []) : H.Start c where
  trace := h₀.trace
  fresh t k p ht := by
    rw [h₀.threads] at ht
    rw [h₀.next]
    unfold loops at ht
    split at ht <;> cases ht
    · exact ⟨by decide, rfl, hdispatch⟩
    · exact ⟨by decide, rfl, hreconcile⟩
    · exact ⟨by decide, rfl, hgc⟩

/-! ## What the history says of workers -/

/-- The worker a thread is, from its spawn to its end. -/
def working (u : Tid) : History → Option (String × WorkflowJob)
  | [] => none
  | .did _ _ (.sched (.spawnJob cur event)) v _ :: τ =>
    if v = u then some (cur, event) else working u τ
  | .did .. :: τ => working u τ
  | .ended v _ _ :: τ => if v = u then none else working u τ

end Daemon

end GhaConsumer

import GhaConsumer.Daemon.Pause

/-!
# The daemon — graceful shutdown, the model

The daemon with its shutdown coordinator and its control endpoint. The
semaphore is a queue: an acquire joins it and is granted in its turn, and
`try_acquire` takes no permit past those that wait. The coordinator sets
the flag the control endpoint's requests set and clear, and then queues
for every permit there is.
-/

namespace GhaConsumer

namespace Drain

open Interleave

/-! ## Calls -/

/-- How `run_shutdown` ends. -/
inductive Shutdown where
  | drained
  | forced
  deriving DecidableEq, Repr

/-- One atomic call. -/
inductive Op where
  /-- A call of the host, an acquire excepted. -/
  | host (o : GhaConsumer.Op)
  /-- The first poll of an acquire of `n` permits. -/
  | enqueue (n : ℕ)
  /-- The permits an acquire has waited for. -/
  | granted (n : ℕ)
  /-- `graceful.notified()`. -/
  | graceful
  /-- The control endpoint's next `/pause` (`true`) or `/resume`. -/
  | request
  /-- `pause.send(paused)`. -/
  | send (paused : Bool)
  /-- The biased wait for an acquire of `n` permits or for `force`; what
  it acquires it drops. -/
  | drainOrForce (n : ℕ)
  /-- The process exits. -/
  | exit

abbrev Resp : Op → Type
  | .host o => GhaConsumer.Resp o
  | .request => Bool
  | .drainOrForce _ => Shutdown
  | _ => Unit

structure State where
  host : World
  /-- The acquires that wait, the first in front, with what they wait for. -/
  queue : List (Tid × ℕ)
  /-- The first TERM or INT has come. -/
  graceful : Bool
  /-- A further INT has come. -/
  force : Bool
  exited : Bool

abbrev Oracle : Op → Type
  | .host o => GhaConsumer.Oracle o
  | .request => Bool
  | _ => Unit

/-- The host, with this runtime. -/
def State.withSched (s : State) (sched : Sched.State) : State :=
  { s with host := { s.host with sched := sched } }

/-- Whether the acquire in front is `t`'s, of `n` permits that are free. -/
def State.ready (s : State) (t : Tid) (n : ℕ) : Bool :=
  s.queue.head? == some (t, n) &&
    s.host.sched.holders.length + n ≤ s.host.sched.capacity

def step (C : Codec) (t : Tid) : (o : Op) → Oracle o → State → Option (Resp o × State)
  | .host (.sched .acquire), _, _ => none
  | .host (.sched .tryAcquire), _, s =>
    if s.exited then none
    else if s.queue = [] ∧ s.host.sched.holders.length < s.host.sched.capacity then
      some (true, s.withSched { s.host.sched with holders := t :: s.host.sched.holders })
    else some (false, s)
  | .host o, q, s =>
    if s.exited then none
    else (GhaConsumer.step C t o q s.host).map fun (r, w) => (r, { s with host := w })
  | .enqueue n, _, s => if s.exited then none else some ((), { s with queue := s.queue ++ [(t, n)] })
  | .granted n, _, s =>
    if s.exited || !s.ready t n then none
    else some ((), { s.withSched { s.host.sched with
      holders := .replicate n t ++ s.host.sched.holders } with queue := s.queue.tail })
  | .graceful, _, s => if s.exited || !s.graceful then none else some ((), s)
  | .request, b, s => if s.exited then none else some (b, s)
  | .send b, _, s =>
    if s.exited then none else some ((), s.withSched { s.host.sched with paused := b })
  | .drainOrForce n, _, s =>
    if s.exited then none
    else if s.ready t n then some (.drained, { s with queue := s.queue.tail })
    else if s.force then some (.forced, { s with queue := s.queue.filter fun x => x.1 ≠ t })
    else none
  | .exit, _, s => if s.exited then none else some ((), { s with exited := true })

/-- What the outside does by itself. -/
inductive Env where
  | host (e : GhaConsumer.Env)
  | graceful
  | force

/-- The flag is the control endpoint's and the coordinator's to set. -/
def Env.step : Env → State → Option State
  | .host (.setPaused _), _ => none
  | .host e, s => some { s with host := e.step s.host }
  | .graceful, s => some { s with graceful := true }
  | .force, s => if s.graceful then some { s with force := true } else none

/-! ## Tasks -/

/-- `u32::try_from(max_concurrency).unwrap_or(u32::MAX)`. -/
def permitCount (maxConcurrency : ℕ) : ℕ :=
  if maxConcurrency < 2 ^ 32 then maxConcurrency else 2 ^ 32 - 1

/-- One call. -/
abbrev call (o : Op) : Prog Resp (Resp o) := Prog.op o

/-- What each call of the daemon's tasks is here. -/
def impl : (o : GhaConsumer.Op) → Prog Resp (GhaConsumer.Resp o)
  | .sched .acquire => do
    call (.enqueue 1)
    call (.granted 1)
  | o => call (.host o)

inductive Task where
  | daemon (k : Daemon.Task)
  | shutdown
  | control
  deriving DecidableEq, Repr

/-- `run_shutdown`, and the exit that follows it. -/
def runShutdown (maxConcurrency : ℕ) : Prog Resp Unit := do
  call .graceful
  call (.send true)
  call (.enqueue (permitCount maxConcurrency))
  let _ ← call (.drainOrForce (permitCount maxConcurrency))
  call .exit

/-- A request to the control endpoint: `pause` or `resume`. -/
def handleRequest : Prog Resp Unit := do
  let paused ← call .request
  call (.send paused)

variable (cfg : Config) (fuel : ℕ)

def body : Task → Prog Resp (Option Task)
  | .daemon k => do
    let next ← (Daemon.body cfg fuel k).lower impl
    pure (next.map .daemon)
  | .shutdown => do
    runShutdown cfg.maxConcurrency
    pure none
  | .control => do
    handleRequest
    pure (some .control)

/-- The worker a call starts. -/
def forks : (o : Op) → Resp o → Option (Tid × Task)
  | .host o, r => (Daemon.forks o r).map fun (u, k) => (u, .daemon k)
  | _, _ => none

def machine : Machine Resp Task State where
  body := body cfg fuel
  Oracle := Oracle
  step := step cfg.codec
  forks := forks
  Env := Env
  env := Env.step
  leave t s := { s with host := World.leave t s.host }
  crash _ _ := none

abbrev Shared := Interleave.Shared Resp Task State

/-- A line of the history. -/
abbrev Line := Entry Resp Task State

abbrev History := List Line

abbrev Pool := Interleave.Config Resp Task State

/-- The threads of the coordinator and of the control endpoint. -/
abbrev coordinator : Tid := 3

abbrev endpoint : Tid := 4

/-- The loops, the coordinator and the control endpoint, and no worker
yet. -/
def threads : Tid → Option (Task × Prog Resp (Option Task))
  | 0 => some (.daemon .dispatch, body cfg fuel (.daemon .dispatch))
  | 1 => some (.daemon .reconcile, body cfg fuel (.daemon .reconcile))
  | 2 => some (.daemon .gc, body cfg fuel (.daemon .gc))
  | 3 => some (.shutdown, body cfg fuel .shutdown)
  | 4 => some (.control, body cfg fuel .control)
  | _ => none

/-- The daemon has just started: whatever files, VMs and runners there
are, all permits are free and no signal has come. -/
structure Start (c : Pool) : Prop where
  trace : c.trace = []
  next : c.next = 5
  threads : c.threads = threads cfg fuel
  capacity : c.world.host.sched.capacity = cfg.maxConcurrency
  holders : c.world.host.sched.holders = []

/-! ## What the history says -/

/-- The workers started and not ended. -/
def working (u : Tid) : History → Bool
  | [] => false
  | .did _ _ (.host (.sched (.spawnJob ..))) v _ :: τ => v == u || working u τ
  | .did .. :: τ => working u τ
  | .ended v _ _ :: τ => v != u && working u τ

/-- The call of the daemon a call is. -/
def seen : Event Resp → Option (Event GhaConsumer.Resp)
  | ⟨.host o, r⟩ => some ⟨o, r⟩
  | ⟨.granted _, _⟩ => some ⟨.sched .acquire, ()⟩
  | _ => none

/-- The calls of the daemon's thread `t`. -/
def daemonOwn (t : Tid) (τ : History) : Pause.Own := (Entry.own t τ).filterMap seen

end Drain

end GhaConsumer

import GhaConsumer.Host.World
import GhaConsumer.Interleave.Channel

/-!
# The spool watcher — the model

`watch` and `enumerate_new`: the task that scans `new/` and sends the
names of the job files to the dispatch loop, once at startup and then each
time an event of the file system or a tick of its timer wakes it. The
event channel is unbounded and only counts; a tick that comes while one is
due is skipped. What the dispatch loop does with a name, and everyone else
who has the spool's files in hand, is any sequence of file calls.
-/

namespace GhaConsumer

namespace Watch

open Interleave

/-! ## Calls -/

/-- `mpsc::channel(256)`. -/
abbrev Names := Channel String 256

/-- The branch of the loop's `select!` that goes ahead. -/
inductive Wake where
  | tick
  | event
  /-- `evt_rx.recv()` is `None`. -/
  | unsubscribed
  /-- `tx.closed()`. -/
  | closed
  deriving DecidableEq, Repr

/-- One atomic call. -/
inductive Op where
  | fs (o : Files.Op Dir String)
  /-- `tx.send(name)`: whether there is a receiver. -/
  | send (name : String)
  | recv
  /-- `recommended_watcher` and `watcher.watch`. -/
  | subscribe
  /-- `interval(10s)`, whose first tick is due at once. -/
  | interval
  | select
  /-- `evt_rx.try_recv().is_ok()`. -/
  | tryRecv
  /-- The callback of `recommended_watcher`: whether it sends. -/
  | notify
  /-- Ten seconds are over: whether there is a timer. -/
  | elapse
  /-- Which file call comes next, in work that is not the watcher's. -/
  | choose
  deriving DecidableEq

@[reducible] def Resp : Op → Type
  | .fs o => Files.Resp o
  | .send _ | .tryRecv | .notify | .elapse => Bool
  | .recv => Option String
  | .subscribe => Except String Unit
  | .interval => Unit
  | .select => Wake
  | .choose => Option (Files.Op Dir String)

@[reducible] def Oracle : Op → Type
  | .fs _ => Files.Oracle String
  | .subscribe => Except String Unit
  | .select => Wake
  -- whether it is called with an event, and not with an error
  | .notify => Bool
  | .choose => Option (Files.Op Dir String)
  | _ => Unit

structure World where
  fs : FileState
  names : Names
  /-- The events in `evt_rx`. -/
  events : ℕ
  /-- A tick is due. -/
  due : Bool
  subscribed : Bool
  ticking : Bool
  /-- The watcher, which owns `tx` and `evt_rx`, is there. -/
  watching : Bool
  /-- The dispatch loop, which owns `rx`, is there. -/
  listening : Bool

/-- The thread of `watch`. -/
abbrev watcher : Tid := 0

/-- The thread of the dispatch loop. -/
abbrev dispatcher : Tid := 1

def step (t : Tid) : (o : Op) → Oracle o → World → Option (Resp o × World)
  | .fs o, q, w => (Files.step t o q w.fs).map fun (r, fs) => (r, { w with fs := fs })
  | .send name, _, w =>
    if t ≠ watcher then none
    else if w.listening then (w.names.send name).map fun names => (true, { w with names := names })
    else some (false, w)
  | .recv, _, w =>
    if t ≠ dispatcher then none
    else match w.names.recv with
      | some (name, names) => some (some name, { w with names := names })
      | none => if w.watching then none else some (none, w)
  | .subscribe, .error e, w => some (.error e, w)
  | .subscribe, .ok (), w =>
    if t ≠ watcher then none else some (.ok (), { w with subscribed := true })
  | .interval, _, w =>
    if t ≠ watcher then none else some ((), { w with ticking := true, due := true })
  | .select, wake, w =>
    if t ≠ watcher then none
    else match wake with
      | .tick => if w.due then some (.tick, { w with due := false }) else none
      | .event => if w.events = 0 then none else some (.event, { w with events := w.events - 1 })
      | .unsubscribed => if w.events = 0 then some (.unsubscribed, w) else none
      | .closed => if w.listening then none else some (.closed, w)
  | .tryRecv, _, w =>
    if t ≠ watcher then none
    else if w.events = 0 then some (false, w) else some (true, { w with events := w.events - 1 })
  | .notify, q, w =>
    if q && w.subscribed then some (true, { w with events := w.events + 1 }) else some (false, w)
  | .elapse, _, w => if w.ticking then some (true, { w with due := true }) else some (false, w)
  | .choose, o, w => some (o, w)

/-- A task's end, which drops what it owns. -/
def leave (t : Tid) (w : World) : World :=
  let w := { w with fs := Files.leave t w.fs }
  if t = watcher then { w with watching := false, subscribed := false, ticking := false }
  else if t = dispatcher then { w with listening := false }
  else w

/-! ## The watcher -/

abbrev Program := Prog Resp

abbrev op (o : Op) : Program (Resp o) := Prog.op o

/-- Where `watch` calls `enumerate_new`. -/
inductive Pass where
  /-- Before the loop, with `?`. -/
  | first
  /-- In the loop, where an error is logged. -/
  | again
  deriving DecidableEq, Repr

inductive Task where
  | enumerateNew (pass : Pass)
  /-- One round of `while let Some(ent) = rd.next_entry().await?`. -/
  | nextEntry (pass : Pass)
  /-- From the first enumeration to the loop. -/
  | subscribe
  /-- The loop's `select!`. -/
  | select
  /-- One round of `while evt_rx.try_recv().is_ok()`. -/
  | drain
  /-- `rx.recv()` of the dispatch loop. -/
  | dispatch
  /-- What the dispatch loop does between two names. -/
  | handle
  /-- What anyone else does with the files. -/
  | work
  /-- The events of the file system. -/
  | notifier
  /-- The timer. -/
  | timer
  deriving DecidableEq, Repr

/-- The tasks of the others. -/
def Task.outside : Task → Bool
  | .dispatch | .handle | .work | .notifier | .timer => true
  | _ => false

/-- What follows `enumerate_new`. -/
def Pass.next : Pass → Except Files.Errno Unit → Option Task
  | .first, .error _ => none
  | .first, .ok () => some .subscribe
  | .again, _ => some .select

/-- `s.ends_with(".job")`. -/
def isJob (name : String) : Bool := ".job".toList.isSuffixOf name.toList

/-- `enumerate_new`, to its loop. -/
def enumerateNew (pass : Pass) : Program (Option Task) := do
  match ← op (.fs (.openDir .new)) with
  | .error e => pure (pass.next (.error e))
  | .ok () => pure (some (.nextEntry pass))

def nextEntry (pass : Pass) : Program (Option Task) := do
  match ← op (.fs .nextEntry) with
  | .error e => pure (pass.next (.error e))
  | .ok none => pure (pass.next (.ok ()))
  | .ok (some ent) =>
    if !isJob ent.name then pure (some (.nextEntry pass))
    else match ← op (.fs (.fileType ent)) with
      | .error _ => pure (some (.nextEntry pass))
      | .ok (.other _) => pure (some (.nextEntry pass))
      | .ok .regular =>
        if ← op (.send ent.name) then pure (some (.nextEntry pass))
        else pure (pass.next (.ok ()))

def subscribe : Program (Option Task) := do
  match ← op .subscribe with
  | .error _ => pure none
  | .ok () =>
    op .interval
    pure (some .select)

/-- The `select!` of the loop. -/
def select : Program (Option Task) := do
  match ← op .select with
  | .tick => pure (some (.enumerateNew .again))
  | .event => pure (some .drain)
  | .unsubscribed | .closed => pure none

def drain : Program (Option Task) := do
  if ← op .tryRecv then pure (some .drain) else pure (some (.enumerateNew .again))

/-! ## The others -/

/-- One turn of the dispatch loop. -/
def dispatch : Program (Option Task) := do
  match ← op .recv with
  | none => pure none
  | some _ => pure (some .handle)

/-- Some file calls, and then `done`. -/
def files (more done : Option Task) : Program (Option Task) := do
  match ← op .choose with
  | none => pure done
  | some o =>
    let _ ← op (.fs o)
    pure more

def body : Task → Program (Option Task)
  | .enumerateNew pass => enumerateNew pass
  | .nextEntry pass => nextEntry pass
  | .subscribe => subscribe
  | .select => select
  | .drain => drain
  | .dispatch => dispatch
  | .handle => files (some .handle) (some .dispatch)
  | .work => files (some .work) none
  | .notifier => do
    let _ ← op .notify
    pure (some .notifier)
  | .timer => do
    let _ ← op .elapse
    pure (some .timer)

/-- Time passes. -/
def later (n : ℕ) (w : World) : World := { w with fs := { w.fs with now := w.fs.now + n } }

def machine : Machine Resp Task World where
  body := body
  Oracle := Oracle
  step := step
  forks _ _ := none
  Env := ℕ
  env n w := some (later n w)
  leave := leave
  crash t w := some (leave t w)

abbrev Pool := Interleave.Config Resp Task World

abbrev Line := Entry Resp Task World

/-- The daemon as it comes to spawn the watcher, whatever is in the spool;
the others are any number of threads. -/
structure Start (c : Pool) : Prop where
  trace : c.trace = []
  names : c.world.names = .empty
  watching : c.threads watcher = some (.enumerateNew .first, body (.enumerateNew .first))
  dispatching : c.threads dispatcher = some (.dispatch, body .dispatch)
  fresh : ∀ t k p, c.threads t = some (k, p) → t < c.next ∧ p = body k ∧
    (t ≠ watcher → k.outside = true)

end Watch

end GhaConsumer

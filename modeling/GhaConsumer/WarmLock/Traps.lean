import GhaConsumer.WarmLock.Model

/-!
# Warm lock — the traps

The warm scripts of `WarmLock/Model` with the traps they install: on INT
or TERM `exit`, and on exit `release_lock`. The shell looks for a signal
between one command and the next, so a script is its program with a look
before each command; a signal found while `release_lock` runs from the
trap ends the process at once, and one found anywhere else sends it there.
-/

namespace GhaConsumer

namespace WarmLock.Traps

open Interleave

inductive Op where
  /-- A command of the script. -/
  | cmd (o : WarmLock.Op)
  /-- Whether INT or TERM has arrived since the last command. -/
  | signal
  /-- The end of the process. -/
  | exit
  deriving DecidableEq, Repr

abbrev Resp : Op → Type
  | .cmd o => WarmLock.Resp o
  | .signal => Bool
  | .exit => Unit

/-- Run one operation. -/
abbrev call (o : Op) : Prog Resp (Resp o) := Prog.op o

/-- A program with a look for a signal before each command; none where one
was found. -/
def interruptible {α : Type} : Prog WarmLock.Resp α → Prog Resp (Option α)
  | .ret a => .ret (some a)
  | .call o f => .call .signal fun
    | true => .ret none
    | false => .call (.cmd o) fun r => interruptible (f r)

/-- The EXIT trap. -/
def exitTrap : Prog Resp (Option Task) := do
  let _ ← interruptible releaseLock
  call .exit
  pure none

/-- A warm script with its traps. -/
def body : Task → Prog Resp (Option Task)
  | .release => exitTrap
  | k => do
    match ← interruptible (WarmLock.body k) with
    | some next => pure next
    | none => pure (some .release)

def step (t : Pid) : (o : Op) → Bool → World → Option (Resp o × World)
  | .cmd o, fails, w => WarmLock.step t o fails w
  | .signal, arrived, w => some (arrived, w)
  | .exit, _, w => some ((), { w with alive := Function.update w.alive t false })

/-- Processes that share a base directory, any of which may be signalled
between two commands, or killed. A process starts with its traps
installed. -/
@[reducible] def machine : Machine Resp Task World where
  body := body
  Oracle _ := Bool
  step := step
  forks _ _ := none
  Env := ℕ
  env n w := some { w with seconds := w.seconds + n }
  leave t w := { w with alive := Function.update w.alive t false }
  crash t w := some { w with alive := Function.update w.alive t false }

end WarmLock.Traps

end GhaConsumer

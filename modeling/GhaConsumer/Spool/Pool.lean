import GhaConsumer.Files.Frame
import GhaConsumer.Host.Sample
import GhaConsumer.Spool.Model

/-!
# Spool — the machine

Any number of the daemon's tasks on one spool: claims, finalizes,
synthetic claims and expiries, started at any time and interleaved call
by call, while files arrive in `new/`.
-/

namespace GhaConsumer

namespace Spool

open Interleave

/-- One call into the spool. -/
inductive Task where
  | claim (name : String)
  /-- A `try_claim` that has returned `Some` path. -/
  | claimed (name : String)
  | finalizeDone (cur : String)
  | finalizeError (cur reason : String)
  | synthetic (job : JobStatus) (fullName : String)
  | expire (maxAgeSecs : ℕ)
  deriving DecidableEq, Repr

/-- What follows a `try_claim`. -/
def afterClaim : Except String (Option String) → Option Task
  | .ok (some name) => some (.claimed name)
  | _ => none

variable (cfg : Config) (fuel : ℕ)

def body : Task → Prog Resp (Option Task)
  | .claim name => do pure (afterClaim (← tryClaim name))
  | .claimed _ => pure none
  | .finalizeDone cur => do let _ ← finalizeDone cur; pure none
  | .finalizeError cur reason => do let _ ← finalizeError cur reason; pure none
  | .synthetic job fullName => do let _ ← writeSyntheticClaim cfg job fullName; pure none
  | .expire maxAgeSecs => do let _ ← expireStaleCur fuel maxAgeSecs; pure none

/-- The spool's machine: no task is killed, and none starts another. -/
def machine : Machine Resp Task World where
  body := body cfg fuel
  Oracle := Oracle
  step := step cfg.codec
  forks _ _ := none
  Env := Env
  env e w := some (e.step w)
  leave := World.leave
  crash _ _ := none

abbrev State := Shared Resp Task World

/-- A line of the history. -/
abbrev Line := Entry Resp Task World

abbrev Pool := Interleave.Config Resp Task World

/-- Nothing has happened yet, and every thread is at the start of its
call. -/
structure Start (c : Pool) : Prop where
  trace : c.trace = []
  fresh : ∀ t k p, c.threads t = some (k, p) → t < c.next ∧ p = body cfg fuel k
  unclaimed : ∀ t name p, c.threads t ≠ some (.claimed name, p)

/-- The file a line moves: from where, and to where. -/
def moved : Line → Option (Path × Path)
  | .did _ _ (.fs o) r _ => Files.moved o r
  | _ => none

/-! ## Small pools -/

/-- One thread for each call, on the sample host. -/
def samplePool (fuel : ℕ) (tasks : List Task) (w : World) : Pool where
  world := w
  next := tasks.length
  trace := []
  threads t := tasks[t]?.map fun k => (k, body sampleConfig fuel k)

theorem samplePool_start {fuel : ℕ} {tasks : List Task} (w : World)
    (h : ∀ name, .claimed name ∉ tasks) :
    Start sampleConfig fuel (samplePool fuel tasks w) where
  trace := rfl
  fresh t k p ht := by
    obtain ⟨k', hk, heq⟩ := Option.map_eq_some_iff.mp ht
    cases heq
    exact ⟨(List.getElem?_eq_some_iff.mp hk).1, rfl⟩
  unclaimed t name p ht := by
    obtain ⟨k', hk, heq⟩ := Option.map_eq_some_iff.mp ht
    cases heq
    exact h name (List.mem_of_getElem? hk)

/-- `n` calls of thread `t`, none of which fails. -/
def calls (fuel : ℕ) (t : Tid) (n : ℕ) : List (machine sampleConfig fuel).Move :=
  .replicate n (.call t ({} : Answers).oracle)

end Spool

end GhaConsumer

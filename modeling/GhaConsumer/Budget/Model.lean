import GhaConsumer.Gc.Model
import GhaConsumer.GitHub.Timing
import GhaConsumer.Host.World

/-!
# Budget — the model

A claim and its worker by the clock: the host's calls with the time each
may take. A `limactl` command ends by its timeout, the shell by the
deadline it was given, a call of GitHub when its `send_authed` does
(`GitHub/Timing`), and work on files takes no time. While the watchdog
polls the shell goes on, so its polls are within the shell's time.
-/

namespace GhaConsumer

namespace Budget

open Interleave Alone

/-- `n` seconds in nanoseconds. -/
def secs (n : ℕ) : ℕ := 1000000000 * n

structure State where
  world : World
  /-- What is known of the installation, and the tokens. -/
  github : GitHub.World
  /-- When the shell that was started last must have ended. -/
  shellEnds : ℕ
  /-- The modification time the claim had as it came to its place in `cur/`. -/
  mtime : Option ℕ
  /-- When finalize was called. -/
  called : Option ℕ

/-- The time of the call of finalize, or before it the time it is. -/
def State.clock (s : State) : ℕ := s.called.getD s.world.fs.now

/-- The timeout of a `limactl` command. -/
def commandTimeout : Lima.Op → ℕ
  | .start _ => secs startTimeout
  | .copyInto _ => secs copyTimeout
  | .stop _ => secs stopTimeout
  | .delete _ => secs deleteTimeout
  | .list => secs listTimeout
  | _ => 0

/-- `send_authed` took `d`, and came to an answer where the call did. Any
number of callers may stand in line at the installation id. -/
def Sends (cfg : Config) {α : Type} (r : Except String α) (s : State) (d : ℕ)
    (g : GitHub.World) : Prop :=
  ∃ (line appId : ℕ) (account ctx : String) (build : GitHub.Request) (a : GitHub.Answer String),
    Ends (GitHub.timedStep (secs cfg.apiTimeoutSecs.toNat) line)
      (GitHub.sendAuthed appId account ctx build) { s.github with now := s.world.fs.now } a g ∧
    g.now = s.world.fs.now + d ∧ (r.isOk = true → a.isOk = true)

/-- A call may take `d`, and leave `g` known of the installation. -/
def Lasts (cfg : Config) (s : State) (d : ℕ) (g : GitHub.World) :
    (o : Op) → Resp o → Prop
  | .fs _, _ => d = 0 ∧ g = s.github
  | .sched .lockArchive, _ => g = s.github
  | .sched _, _ => d = 0 ∧ g = s.github
  | .lima .shellOrTick, _ | .lima .shellWait, _ => s.world.fs.now + d ≤ s.shellEnds ∧ g = s.github
  | .lima o, _ => d ≤ commandTimeout o ∧ g = s.github
  | .hub (.runnerStatus ..), _ => s.world.fs.now + d ≤ s.shellEnds ∧ g = s.github
  | .hub (.generateJitConfig ..), r => Sends cfg r s d g
  | .hub (.deleteRunner ..), r => Sends cfg r s d g
  | .hub (.jobStatus ..), r => Sends cfg r s d g
  -- The lists are read page by page, and by no worker.
  | .hub (.listRunners ..), _ | .hub (.listQueuedJobs ..), _ => True

/-- A stamp does not fail. -/
def Stamps : (o : Op) → Oracle o → Prop
  | .fs (.openRead _), q | .fs (.fstat _), q | .fs (.setModified ..), q => q.fails = false
  | _, _ => True

/-- The shell started at `now` has until then. -/
def shellEndsAfter (cfg : Config) (s : State) (now : ℕ) : Op → ℕ
  | .lima (.shellStart _) => now + secs cfg.jobMaxRuntimeSecs.toNat
  | _ => s.shellEnds

/-- The time of a file renamed into `cur/`. -/
def mtimeAfter (s : State) (w' : World) : (o : Op) → Resp o → Option ℕ
  | .fs (.renameNoClobber _ p'), .ok () =>
    if p'.dir = .cur then (w'.fs.tree.ino p').map fun i => (w'.fs.tree.node i).mtime else s.mtime
  | _, _ => s.mtime

def calledAfter (s : State) : Op → Option ℕ
  | .sched .lockArchive => some s.clock
  | _ => s.called

/-- **One call by the clock.** No time is later than a `u64` of seconds
can say. -/
def timedStep (cfg : Config) : Alone.Step Resp State := fun o s r s' =>
  ∃ (d : ℕ) (q : Oracle o),
    Stamps o q ∧ Lasts cfg s d s'.github o r ∧
    step cfg.codec 0 o q (Env.step (.tick d) s.world) = some (r, s'.world) ∧
    ageSecs s'.world.fs.now 0 ≤ u64Max ∧
    s'.shellEnds = shellEndsAfter cfg s s'.world.fs.now o ∧
    s'.mtime = mtimeAfter s s'.world o r ∧
    s'.called = calledAfter s o

end Budget

end GhaConsumer

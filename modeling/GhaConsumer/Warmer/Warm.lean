import GhaConsumer.Runner.Model
import GhaConsumer.Warmer.Conf
import GhaConsumer.Warmer.Flakeref
import GhaConsumer.Warmer.Model

/-!
# Warmer — the warm itself

`run_warm` builds an untrusted flake and signs what comes of it, so it
does so in a scratch directory of its own: a netrc with the token, a
private `nix.conf`, a scrubbed environment. Each target is built only
once its whole closure has been looked through, and copied only once it
is built. The directory goes with its owner, by whatever way the owner
goes, and so do the children.

The calls are those of `run_candidate`, the client's, the file system's
and what a child process takes: to be started, waited for within the
timeout, and killed with its group. What a `Drop` does is written out
where its owner is dropped.
-/

namespace GhaConsumer

namespace Warm

open Interleave Text
open Warmer (WarmCandidate CoalesceKey Instant buildFlakeref isCommitSha)
open Conf (warmSlug)

abbrev Pid := ℕ

/-- A command of the warmer's, in a process group of its own; its standard
error is discarded, and so is its output unless it is piped. -/
structure Child where
  program : OsPath
  args : List (List UInt8)
  env : List (String × String)
  cwd : OsPath
  /-- Whose output it reads. -/
  stdin : Option Pid
  piped : Bool
  deriving DecidableEq

/-- What comes of waiting within the timeout. -/
inductive Waited where
  | exited (status : ExitStatus)
  | failed (e : String)
  | elapsed
  deriving DecidableEq

/-! ## Calls -/

/-- Calls of the file system, each of which may fail. -/
inductive Fs where
  | createDirAll (p : OsPath)
  | createDir (p : OsPath)
  | setPermissions (p : OsPath) (mode : UInt32)
  | removeDirAll (p : OsPath)
  /-- Created with a mode, and not there before. -/
  | createNew (p : OsPath) (mode : UInt32)
  | writeAll (p : OsPath) (contents : List UInt8)
  deriving DecidableEq

inductive Op where
  /-- A call of `run_candidate`, `run_warm` aside. -/
  | gate (o : Warmer.Op)
  | contentsReadToken (repoId : UInt64)
  /-- `NEXT_ATTEMPT.fetch_add(1)`. -/
  | nextAttempt
  | fs (o : Fs)
  | spawn (child : Child)
  /-- `stdout.take()`, made into a `Stdio`. -/
  | takeStdout (pid : Pid)
  | wait (pid : Pid)
  /-- `wait`, for as long as it takes. -/
  | reap (pid : Pid)
  | killGroup (pid : Pid)
  /-- The drop of a child: killed, unless it has been waited for. -/
  | dropChild (pid : Pid)
  deriving DecidableEq

@[reducible] def Resp : Op → Type
  | .gate o => Warmer.Resp o
  | .contentsReadToken _ => Except String String
  | .nextAttempt => UInt64
  | .fs _ => Except String Unit
  | .spawn _ => Except String Pid
  | .takeStdout _ => Bool
  | .wait _ => Waited
  | .reap _ | .killGroup _ | .dropChild _ => Unit

abbrev Program := Prog Resp

abbrev op (o : Op) : Program (Resp o) := Prog.op o

/-- A call, its error in a context. -/
def withContext (context : String) (o : Fs) : Program (Except String Unit) := do
  match ← op (.fs o) with
  | .error e => pure (.error s!"{context}: {e}")
  | .ok () => pure (.ok ())

/-! ## The scratch directory -/

/-- `WarmWorkdir`. -/
@[ext] structure WarmWorkdir where
  root : OsPath
  deriving DecidableEq

namespace WarmWorkdir

def home (d : WarmWorkdir) : OsPath := d.root.join "home"

def netrc (d : WarmWorkdir) : OsPath := d.root.join "netrc"

def rootsDir (d : WarmWorkdir) : OsPath := d.root.join "roots"

def nixConfDir (d : WarmWorkdir) : OsPath := (d.home.join ".config").join "nix"

end WarmWorkdir

/-- Fallible calls in turn, up to the first that fails. -/
def inTurn : List (Program (Except String Unit)) → Program (Except String Unit)
  | [] => pure (.ok ())
  | p :: ps => do
    match ← p with
    | .error e => pure (.error e)
    | .ok () => inTurn ps

/-- `create_dir_0700`. -/
def createDir0700 (p : OsPath) : Program (Except String Unit) :=
  inTurn [withContext s!"create {p.display}" (.createDir p),
    withContext s!"chmod 0700 {p.display}" (.setPermissions p 0o700)]

/-- `create_dir_all_0700`. -/
def createDirAll0700 (p : OsPath) : Program (Except String Unit) :=
  inTurn [withContext s!"create {p.display}" (.createDirAll p),
    withContext s!"chmod 0700 {p.display}" (.setPermissions p 0o700)]

/-- `write_file_0600`. -/
def writeFile0600 (p : OsPath) (contents : List UInt8) : Program (Except String Unit) :=
  inTurn [withContext s!"create {p.display}" (.createNew p 0o600),
    withContext s!"write {p.display}" (.writeAll p contents)]

/-- `netrc_contents`. -/
def netrcContents (token : String) : String :=
  "machine github.com login x-access-token password " ++ token ++ "\n"

/-- `WarmWorkdir::create`. The directory is the owner's from before it is
made, and so is removed wherever its making fails. -/
def WarmWorkdir.create (parent : OsPath) (slug token nixConf : String) :
    Program (Except String WarmWorkdir) := do
  match ← createDirAll0700 parent with
  | .error e => pure (.error e)
  | .ok () =>
    let d : WarmWorkdir := ⟨parent.join slug⟩
    let _ ← op (.fs (.removeDirAll d.root))
    match ← inTurn [createDir0700 d.root, createDirAll0700 d.nixConfDir, createDir0700 d.rootsDir,
        writeFile0600 d.netrc (bytes (netrcContents token)),
        writeFile0600 (d.nixConfDir.join "nix.conf") (bytes nixConf)] with
    | .error e => do
      let _ ← op (.fs (.removeDirAll d.root))
      pure (.error e)
    | .ok () => pure (.ok d)

/-! ## Children -/

/-- `Warmer::child_env`. -/
def childEnv (w : Conf.Warmer) (d : WarmWorkdir) : List (String × String) :=
  let home := d.home
  let nixBinDir := w.nixBin.parent.getD w.nixBin
  let path := nixBinDir.display ++ ":" ++ w.toolsDir.display ++ ":/usr/bin:/bin:/usr/sbin:/sbin"
  [("HOME", home.display),
    ("XDG_CONFIG_HOME", (home.join ".config").display),
    ("XDG_CACHE_HOME", (home.join ".cache").display),
    ("XDG_DATA_HOME", (home.join ".local/share").display),
    ("PATH", path),
    ("GHA_CACHE_DIR", w.cacheBase.display),
    ("GHA_CACHE_KEY_NAME", w.keyName)]

/-- `--option name value`. -/
def option (name value : String) : List String := ["--option", name, value]

/-- What the two `nix` commands pin alike. -/
def purity : List String :=
  ["--no-update-lock-file", "--no-registries", "--extra-experimental-features",
    "nix-command flakes"] ++ option "accept-flake-config" "false" ++ option "flake-registry" "" ++
    option "allow-import-from-derivation" "false"

/-- `nix_build_args`. -/
def nixBuildArgs (installable : String) (outLink : OsPath) (substituters trustedPublicKeys : String) :
    List (List UInt8) :=
  [bytes "build", bytes installable, bytes "--out-link", outLink] ++
    (purity ++ option "require-sigs" "true" ++ option "substituters" substituters ++
      option "trusted-public-keys" trustedPublicKeys).map bytes

/-- `nix_derivation_show_args`. -/
def nixDerivationShowArgs (installable : String) : List (List UInt8) :=
  (["derivation", "show", "--recursive", installable] ++ purity).map bytes

/-- `CLOSURE_SYSTEM_FILTER`. -/
def closureSystemFilter : String := "all(.[]; .system == \"aarch64-linux\" or .system == \"builtin\")"

/-- `WARM_TARGETS`. -/
def warmTargets : List String := ["devShells.aarch64-linux.default", "packages.aarch64-linux.default"]

/-- `outlink_slug`. -/
def outlinkSlug (target : String) : String :=
  if "devShells.".toList.isPrefixOf target.toList then "devshell" else "pkg"

/-- A command in the scratch directory, in its environment. -/
def command (w : Conf.Warmer) (d : WarmWorkdir) (program : OsPath) (args : List (List UInt8)) : Child where
  program := program
  args := args
  env := childEnv w d
  cwd := d.home
  stdin := none
  piped := false

/-- `warm-flake-inputs.sh`. -/
def seedInputs (w : Conf.Warmer) (d : WarmWorkdir) (flakeref : String) : Child :=
  command w d w.warmFlakeInputsSh [bytes flakeref]

/-- `nix derivation show --recursive`. -/
def showClosure (w : Conf.Warmer) (d : WarmWorkdir) (installable : String) : Child :=
  { command w d w.nixBin (nixDerivationShowArgs installable) with piped := true }

/-- `jq -e`, over what `nix` prints. -/
def filterClosure (w : Conf.Warmer) (d : WarmWorkdir) (nix : Pid) : Child :=
  { command w d (w.toolsDir.join "jq") [bytes "-e", bytes closureSystemFilter] with stdin := some nix }

/-- `nix build`. -/
def build (w : Conf.Warmer) (d : WarmWorkdir) (installable target : String) : Child :=
  command w d w.nixBin
    (nixBuildArgs installable (d.rootsDir.join (outlinkSlug target)) w.substituters
      w.trustedPublicKeys)

/-- `warm-cache.sh`. -/
def copy (w : Conf.Warmer) (d : WarmWorkdir) (installable : String) : Child :=
  command w d w.warmCacheSh [bytes installable]

/-- `run_step`'s wait, and what it makes of it. On a timeout the group is
killed first and the child reaped after. -/
def waitStep (w : Conf.Warmer) (label : String) (pid : Pid) : Program (Except String Unit) := do
  match ← op (.wait pid) with
  | .exited status =>
    if status.success then pure (.ok ()) else pure (.error s!"{label} exited with {status.text}")
  | .failed e => pure (.error s!"wait {label}: {e}")
  | .elapsed => do
    op (.killGroup pid)
    op (.reap pid)
    pure (.error s!"{label} timed out after {w.timeoutSecs.toNat}s")

/-- `run_step`. -/
def runStep (w : Conf.Warmer) (child : Child) (label : String) : Program (Except String Unit) := do
  match ← op (.spawn child) with
  | .error e => pure (.error s!"spawn {label}: {e}")
  | .ok pid => do
    let result ← waitStep w label pid
    op (.dropChild pid)
    pure result

/-- A guard still armed, and its child. -/
def killAndDrop (pid : Pid) : Program Unit := do
  op (.killGroup pid)
  op (.dropChild pid)

/-- Both children waited for, `jq` first; whoever is not waited for by the
timeout is killed. -/
def waitBoth (nix jq : Pid) : Program Bool := do
  match ← op (.wait jq) with
  | .elapsed => do
    killAndDrop jq
    killAndDrop nix
    pure false
  | jqStatus => do
    match ← op (.wait nix) with
    | .elapsed => do
      op (.dropChild jq)
      killAndDrop nix
      pure false
    | nixStatus => do
      op (.dropChild jq)
      op (.dropChild nix)
      match nixStatus, jqStatus with
      | .exited nixStatus, .exited jqStatus => pure (nixStatus.success && jqStatus.success)
      | _, _ => pure false

/-- `closure_is_host_build_safe`. -/
def closureIsHostBuildSafe (w : Conf.Warmer) (d : WarmWorkdir) (installable : String) :
    Program Bool := do
  match ← op (.spawn (showClosure w d installable)) with
  | .error _ => pure false
  | .ok nix =>
    if ← op (.takeStdout nix) then
      match ← op (.spawn (filterClosure w d nix)) with
      | .error _ => do
        killAndDrop nix
        pure false
      | .ok jq => waitBoth nix jq
    else do
      killAndDrop nix
      pure false

/-! ## `run_warm` -/

/-- One target: looked through, built, copied. -/
def warmTarget (w : Conf.Warmer) (d : WarmWorkdir) (flakeref target : String) : Program Unit := do
  let installable := flakeref ++ "#" ++ target
  if ← closureIsHostBuildSafe w d installable then
    match ← runStep w (build w d installable target) "nix build" with
    | .error _ => pure ()
    | .ok () => do
      let _ ← runStep w (copy w d installable) "warm-cache.sh"
      pure ()
  else pure ()

/-- `for target in WARM_TARGETS`. -/
def warmEach (w : Conf.Warmer) (d : WarmWorkdir) (flakeref : String) : List String → Program Unit
  | [] => pure ()
  | target :: rest => do
    warmTarget w d flakeref target
    warmEach w d flakeref rest

/-- `run_warm`: whether it got to build. -/
def runWarm (w : Conf.Warmer) (cand : WarmCandidate) (branch : String) : Program Bool := do
  let flakeref := buildFlakeref cand.owner cand.repo branch cand.headSha
  match ← op (.contentsReadToken cand.repoId) with
  | .error _ => pure false
  | .ok token => do
    let attempt ← op .nextAttempt
    let slug := warmSlug cand.owner cand.repo cand.headSha attempt
    match ← WarmWorkdir.create (w.stateDir.join "warm") slug token (w.nixConf slug) with
    | .error _ => pure false
    | .ok d => do
      let _ ← runStep w (seedInputs w d flakeref) "warm-flake-inputs.sh"
      warmEach w d flakeref warmTargets
      let _ ← op (.fs (.removeDirAll d.root))
      pure true

/-! ## From an event -/

/-- `parse_candidate`. -/
def parseCandidate (event : WorkflowJob) (allowed : List String) : Option WarmCandidate := do
  let headBranch ← event.workflowJob.headBranch
  let headSha ← event.workflowJob.headSha
  if !isCommitSha headSha then none
  else if event.repository.fullName ∉ allowed then none
  else do
    let (owner, repo) ← splitOnce event.repository.fullName
    if owner = "" ∨ repo = "" then none
    else some ⟨owner, repo, event.repository.id, headBranch, headSha⟩

/-- What a call of `run_candidate` comes to. -/
def impl (w : Conf.Warmer) : (o : Warmer.Op) → Program (Warmer.Resp o)
  | .runWarm cand branch => runWarm w cand branch
  | o => op (.gate o)

/-- `maybe_trigger`, with the task it starts. -/
def maybeTrigger (w : Conf.Warmer) (allowed : List String) (event : WorkflowJob) : Program Unit :=
  match parseCandidate event allowed with
  | none => pure ()
  | some cand => (Warmer.runCandidate cand).lower (impl w)

/-! ## The machine -/

/-- What is at a path. -/
inductive Node where
  | dir
  | file (contents : List UInt8)
  deriving DecidableEq

/-- A child that has been started and not been seen to end. -/
structure Running where
  tid : Tid
  pid : Pid
  child : Child
  deriving DecidableEq

/-- What a running child does to the disk: what it leaves at these paths. -/
structure Scribble where
  writer : Running
  writes : List (OsPath × Option Node)
  deriving DecidableEq

/-- What the tasks share. Of the disk it is what lies under the state
directory, modes aside. -/
structure World where
  gate : Warmer.World
  attempts : ℕ
  disk : OsPath → Option Node
  running : List Running
  /-- What the children have done so far, the latest first. -/
  scribbles : List Scribble

/-- A call of the file system that fails, and how far it got: the paths
made or removed, and what was written. -/
structure Fault where
  e : String
  reached : OsPath → Bool
  written : List UInt8

/-- What an operation leaves open. -/
@[reducible] def Oracle : Op → Type
  | .gate o => Warmer.Oracle o
  | .contentsReadToken _ => Except String String
  | .fs _ => Option Fault
  | .spawn _ => Except String Pid
  | .takeStdout _ => Bool
  | .wait _ => Waited
  | _ => Unit

abbrev Disk := OsPath → Option Node

namespace Disk

/-- The directory and those it is in, where there is nothing yet. -/
def mkdirs (disk : Disk) (p : OsPath) (reached : OsPath → Bool) : Disk := fun q =>
  if OsPath.under q p && reached q && (disk q).isNone then some .dir else disk q

/-- Without what is in the directory, and the directory. -/
def remove (disk : Disk) (p : OsPath) (reached : OsPath → Bool) : Disk := fun q =>
  if OsPath.under p q && reached q then none else disk q

/-- One call, with its answer. -/
def step (disk : Disk) : Fs → Option Fault → Except String Unit × Disk
  | .createDirAll p, none => (.ok (), disk.mkdirs p fun _ => true)
  | .createDirAll p, some f => (.error f.e, disk.mkdirs p f.reached)
  | .createDir p, none =>
    if (disk p).isSome then (.error "File exists (os error 17)", disk)
    else (.ok (), Function.update disk p (some .dir))
  | .setPermissions .., none => (.ok (), disk)
  | .removeDirAll p, none =>
    if (disk p).isNone then (.error "No such file or directory (os error 2)", disk)
    else (.ok (), disk.remove p fun _ => true)
  | .removeDirAll p, some f => (.error f.e, disk.remove p f.reached)
  | .createNew p _, none =>
    if (disk p).isSome then (.error "File exists (os error 17)", disk)
    else (.ok (), Function.update disk p (some (.file [])))
  | .writeAll p contents, none => (.ok (), Function.update disk p (some (.file contents)))
  | .writeAll p _, some f => (.error f.e, Function.update disk p (some (.file f.written)))
  | .createDir _, some f | .setPermissions .., some f | .createNew .., some f => (.error f.e, disk)

end Disk

/-- Without the task's child. -/
def World.drop (x : World) (t : Tid) (pid : Pid) : World :=
  { x with running := x.running.filter fun c => ¬(c.tid = t ∧ c.pid = pid) }

variable (w : Conf.Warmer) (allowed : List String)

/-- `Duration::from_secs`. -/
def coalesceTtl : Warmer.Duration := w.coalesceTtlSecs.toNat * 1000000000

def step (t : Tid) : (o : Op) → Oracle o → World → Option (Resp o × World)
  | .gate o, q, x =>
    (Warmer.step (coalesceTtl w) w.permits t o q x.gate).map fun (r, g) => (r, { x with gate := g })
  | .contentsReadToken _, q, x => some (q, x)
  | .nextAttempt, _, x => some (UInt64.ofNat x.attempts, { x with attempts := x.attempts + 1 })
  | .fs o, q, x =>
    let done := Disk.step x.disk o q
    some (done.1, { x with disk := done.2 })
  | .spawn _, .error e, x => some (.error e, x)
  | .spawn child, .ok pid, x =>
    -- a process has an id no other has
    if x.running.any fun c => c.pid = pid then none
    else some (.ok pid, { x with running := ⟨t, pid, child⟩ :: x.running })
  | .takeStdout _, q, x => some (q, x)
  | .wait pid, .exited status, x => some (.exited status, x.drop t pid)
  | .wait _, q, x => some (q, x)
  | .reap pid, _, x => some ((), x.drop t pid)
  | .killGroup pid, _, x => some ((), x.drop t pid)
  | .dropChild pid, _, x => some ((), x.drop t pid)

/-- A child does as it likes, and nothing of the warmer's keeps it from
anywhere. -/
def Scribble.apply (e : Scribble) (x : World) : Option World :=
  if e.writer ∈ x.running then
    some { x with
      disk := fun q => (e.writes.lookup q).getD (x.disk q)
      scribbles := e :: x.scribbles }
  else none

/-- The child has kept to the scratch directory it runs in, and off the
netrc and the configuration there. -/
def Scribble.Inside (e : Scribble) : Prop :=
  ∀ d : WarmWorkdir, e.writer.child.cwd = d.root ++ OsPath.sep :: OsPath.ofString "home" →
    ∀ p n, (p, n) ∈ e.writes → OsPath.under d.root p = true ∧ p ≠ d.netrc ∧
      p ≠ d.nixConfDir.join "nix.conf"

/-- All children have kept to theirs so far. No code of the warmer's sees
to it: what is told of directories that untrusted children have written in
is told on this assumption. -/
def World.ChildrenInside (x : World) : Prop := ∀ e ∈ x.scribbles, e.Inside

/-- Tasks for any events, in any order. A task is dropped only with all
the others, when the daemon ends. -/
@[reducible] def machine : Machine Resp WorkflowJob World where
  body event := maybeTrigger w allowed event >>= fun _ => pure none
  Oracle := Oracle
  step := step w
  forks _ _ := none
  Env := Scribble
  env := Scribble.apply
  leave t x := { x with gate := Warmer.leave t x.gate }
  crash _ _ := none

end Warm

end GhaConsumer

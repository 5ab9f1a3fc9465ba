import GhaConsumer.Host.World
import GhaConsumer.Intake.Model

/-!
# Spool — the model

The functions of `spool.rs` on the files under `new/`, `cur/`, `done/` and
`error/`, one call per system call, and `gc.rs`'s `expire_stale_cur`,
which judges a claim by one call and archives it by others. A `cur/` path
is given by its file name.
-/

namespace GhaConsumer

open Interleave
open Files (Bytes Errno)

/-! ## Calls -/

/-- One call of the host. -/
abbrev perform (o : Op) : Prog Resp (Resp o) := Prog.op o

abbrev fs (o : Files.Op Dir String) : Prog Resp (Files.Resp o) := perform (.fs o)

abbrev sched (o : Sched.Op) : Prog Resp (Sched.Resp o) := perform (.sched o)

abbrev lima (o : Lima.Op) : Prog Resp (Lima.Resp o) := perform (.lima o)

abbrev hub (o : Hub.Op) : Prog Resp (Hub.Resp o) := perform (.hub o)

/-- `{}` of an `io::Error`. -/
def errnoText : Errno → String
  | .notFound => "No such file or directory (os error 2)"
  | .alreadyExists => "File exists (os error 17)"
  | .other => "Input/output error (os error 5)"

/-- A call's error under a context, as `{:#}` prints it. -/
def withContext {α : Type} (context : String) : Except String α → Except String α
  | .ok a => .ok a
  | .error e => .error s!"{context}: {e}"

/-- `char::is_control`. -/
def isControl (c : Char) : Bool := c.toNat ≤ 0x1f || (0x7f ≤ c.toNat && c.toNat ≤ 0x9f)

/-- `sanitize_for_log`. -/
def sanitizeForLog (s : String) : String :=
  String.ofList ((s.toList.filter fun c => !isControl c).take 256)

/-! ## Claims -/

/-- `stamp_mtime_now`. -/
def stampMtimeNow (p : Path) : Prog Resp Unit := do
  match ← fs (.openRead p) with
  | .error _ => pure ()
  | .ok file =>
    match ← fs (.fstat file) with
    | .error _ => pure ()
    | .ok md =>
      if md.kind ≠ .regular then pure ()
      else
        let now ← fs .now
        let _ ← fs (.setModified file now)
        pure ()

/-- `Spool::is_archived`. -/
def isArchived (name : String) : Prog Resp Bool := do
  if ← fs (.tryExists ⟨.done, name⟩) then pure true
  else fs (.tryExists ⟨.error, name⟩)

/-- What `try_claim` does once its rename has succeeded: the second archive
check, and the claim undone where it hits. -/
def confirmClaim (name : String) : Prog Resp (Except String (Option String)) := do
  if ← isArchived name then
    let _ ← fs (.removeFile (curPath name))
    pure (.ok none)
  else pure (.ok (some name))

/-- `Spool::try_claim`: the name claimed in `cur/`, if any. -/
def tryClaim (name : String) : Prog Resp (Except String (Option String)) := do
  if ← isArchived name then
    let _ ← fs (.removeFile ⟨.new, name⟩)
    pure (.ok none)
  else
    stampMtimeNow ⟨.new, name⟩
    match ← fs (.renameNoClobber ⟨.new, name⟩ (curPath name)) with
    | .ok () => confirmClaim name
    | .error .notFound => pure (.ok none)
    | .error .alreadyExists =>
      let _ ← fs (.removeFile ⟨.new, name⟩)
      pure (.ok none)
    | .error .other => pure (.error s!"claim {name}: {errnoText .other}")

/-! ## Archives -/

/-- Where `preserve_existing` puts a marker of time `now`. -/
def bakPath (dest : Path) (now : ℕ) : Path :=
  ⟨dest.dir, s!"{dest.name}.{now / 1000000}.bak"⟩

/-- `preserve_existing`. -/
def preserveExisting (dest : Path) : Prog Resp (Option Path) := do
  if ← fs (.tryExists dest) then
    let now ← fs .now
    match ← fs (.rename dest (bakPath dest now)) with
    | .ok () => pure (some (bakPath dest now))
    | .error _ => pure none
  else pure none

/-- What `archive` does where the destination is occupied. -/
def archiveOver (cur : String) (dest : Path) : Prog Resp (Except String Bool) := do
  match ← preserveExisting dest with
  | none =>
    match ← fs (.rename (curPath cur) dest) with
    | .ok () => pure (.ok true)
    | .error e => pure (.error (errnoText e))
  | some bak =>
    match ← fs (.rename (curPath cur) dest) with
    | .ok () => pure (.ok true)
    | .error e =>
      let _ ← fs (.rename bak dest)
      pure (.error s!"install archive {dest.name}: {errnoText e}")

/-- `archive`: whether this call installed the file. -/
def archive (cur : String) (dest : Path) : Prog Resp (Except String Bool) := do
  match ← fs (.renameNoClobber (curPath cur) dest) with
  | .ok () => pure (.ok true)
  | .error .notFound => pure (.ok false)
  | .error .alreadyExists => archiveOver cur dest
  | .error .other => pure (.error s!"archive {dest.name}: {errnoText .other}")

/-- Stamp the archive where `archive` installed it. -/
def stampInstalled (dest : Path) : Except String Bool → Prog Resp Unit
  | .ok true => stampMtimeNow dest
  | _ => pure ()

/-- The rest of a finalize under the lock, to the lock's release. -/
def archiveAndStamp (context cur : String) (dest : Path) : Prog Resp (Except String Unit) := do
  let installed ← archive cur dest
  stampInstalled dest installed
  sched .unlockArchive
  pure (withContext context (installed.map fun _ => ()))

/-- `Spool::finalize_done`. -/
def finalizeDone (cur : String) : Prog Resp (Except String Unit) := do
  sched .lockArchive
  archiveAndStamp "move to done/" cur ⟨.done, cur⟩

/-- `Spool::finalize_error`. -/
def finalizeError (cur reason : String) : Prog Resp (Except String Unit) := do
  sched .lockArchive
  let _ ← fs (.write ⟨.error, cur ++ ".err"⟩ reason.toUTF8.toList)
  archiveAndStamp "move to error/" cur ⟨.error, cur⟩

/-! ## Synthetic claims -/

def hexEncode (bs : Bytes) : String :=
  String.ofList (bs.flatMap fun b => [Nat.digitChar (b.toNat / 16), Nat.digitChar (b.toNat % 16)])

/-- `sign_body`. -/
def signBody (C : Codec) (secret body : Bytes) : String :=
  "sha256=" ++ hexEncode (C.hmacSha256 secret body)

/-- The job a synthetic record's body describes. -/
def syntheticEvent (job : JobStatus) (fullName : String) : WorkflowJob where
  action := "queued"
  workflowJob := {
    id := job.id
    runId := job.runId
    runAttempt := job.runAttempt
    headBranch := none
    headSha := none
    name := job.name
    labels := job.labels }
  repository := { id := job.repoId, fullName := fullName }

/-- The envelope over a synthetic body. -/
def syntheticEnvelope (C : Codec) (secret : Bytes) (job : JobStatus) (fullName : String) :
    Envelope where
  schema := 2
  event := "workflow_job"
  delivery := s!"reconciler:{job.id}"
  repoId := job.repoId
  repo := fullName
  action := "queued"
  workflowJobId := job.id
  receivedAtMs := 0
  signature := signBody C secret (C.encodeJob (syntheticEvent job fullName))

def syntheticBytes (C : Codec) (secret : Bytes) (job : JobStatus) (fullName : String) : Bytes :=
  C.encodeEnvelope (syntheticEnvelope C secret job fullName) ++
    10 :: C.encodeJob (syntheticEvent job fullName)

/-- `write_private_file`. -/
def writePrivateFile (p : Path) (contents : Bytes) : Prog Resp (Except Errno Unit) := do
  match ← fs (.createNew p) with
  | .error e => pure (.error e)
  | .ok file =>
    match ← fs (.writeAll file contents) with
    | .error e => pure (.error e)
    | .ok () => fs (.syncAll file)

/-- Where a synthetic claim is staged. -/
def tmpName (job : JobStatus) (pid nonce : ℕ) : String := s!".tmp-reconcile-{job.id}-{pid}-{nonce}"

/-- `Spool::write_synthetic_claim`. -/
def writeSyntheticClaim (cfg : Config) (job : JobStatus) (fullName : String) :
    Prog Resp (Except String (Option String)) := do
  let name := jobFileName job.id
  if ← fs (.tryExists (curPath name)) then pure (.ok none)
  else
    let nonce ← fs .now
    let tmp := curPath (tmpName job cfg.pid nonce)
    match ← writePrivateFile tmp (syntheticBytes cfg.codec cfg.webhookSecret job fullName) with
    | .error e => pure (.error s!"write synthetic claim {name}: {errnoText e}")
    | .ok () =>
      match ← fs (.renameNoClobber tmp (curPath name)) with
      | .ok () =>
        stampMtimeNow (curPath name)
        pure (.ok (some name))
      | .error .alreadyExists =>
        let _ ← fs (.removeFile tmp)
        pure (.ok none)
      | .error e =>
        let _ ← fs (.removeFile tmp)
        pure (.error s!"synthetic claim rename {name}: {errnoText e}")

/-! ## Reading a claim -/

/-- `MAX_FILE_BYTES`. -/
def maxFileBytes : ℕ := 6 * 1024 * 1024

/-- `MAX_ENVELOPE_BYTES`. -/
def maxEnvelopeBytes : ℕ := 4 * 1024

/-- What `read_spool_file` makes of the bytes it has read. -/
def splitSpoolFile (C : Codec) (name : String) (bytes : Bytes) :
    Except String (Envelope × Bytes) :=
  if bytes.length > maxFileBytes then
    .error s!"spool file {name} grew past {maxFileBytes} byte cap during read"
  else match bytes.findIdx? (· == 10) with
    | none => .error "no newline after envelope"
    | some nl =>
      if nl > maxEnvelopeBytes then
        .error s!"envelope line is {nl} bytes; exceeds {maxEnvelopeBytes} byte cap"
      else match C.decodeEnvelope (bytes.take nl) with
        | .error e => .error s!"parse envelope: {e}"
        | .ok env => .ok (env, bytes.drop (nl + 1))

/-- `read_spool_file`. -/
def readSpoolFileAt (C : Codec) (p : Path) : Prog Resp (Except String (Envelope × Bytes)) := do
  match ← fs (.openRead p) with
  | .error e => pure (.error s!"open {p.name}: {errnoText e}")
  | .ok file =>
    match ← fs (.fstat file) with
    | .error e => pure (.error s!"fstat {p.name}: {errnoText e}")
    | .ok md =>
      if md.kind ≠ .regular then pure (.error s!"{p.name} is not a regular file")
      else if md.len > maxFileBytes then
        pure (.error (s!"spool file {p.name} is {md.len} bytes; " ++
          s!"exceeds {maxFileBytes} byte cap"))
      else
        match ← fs (.read file (maxFileBytes + 1)) with
        | .error e => pure (.error s!"read {p.name}: {errnoText e}")
        | .ok bytes => pure (splitSpoolFile C p.name bytes)

/-- `read_spool_file` of a claim. -/
def readSpoolFile (C : Codec) (cur : String) : Prog Resp (Except String (Envelope × Bytes)) :=
  readSpoolFileAt C (curPath cur)

/-! ## Expiry -/

/-- The age of a file in whole seconds. -/
def ageSecs (now mtime : ℕ) : ℕ := (now - mtime) / 1000000000

/-- Files get older. -/
theorem ageSecs_mono {now now' : ℕ} (mtime : ℕ) (h : now ≤ now') :
    ageSecs now mtime ≤ ageSecs now' mtime := by
  unfold ageSecs
  omega

/-- A file of a later time is younger. -/
theorem ageSecs_anti {mtime mtime' : ℕ} (now : ℕ) (h : mtime ≤ mtime') :
    ageSecs now mtime' ≤ ageSecs now mtime := by
  unfold ageSecs
  omega

/-- `expire_stale_cur` at one entry of `cur/`, with the time it began. -/
def expireEntry (maxAgeSecs now : ℕ) (name : String) : Prog Resp Unit := do
  match ← fs (.lstat (curPath name)) with
  | .error _ => pure ()
  | .ok md =>
    if maxAgeSecs < ageSecs now md.mtime then
      let _ ← finalizeError name
        s!"expired by gc: age {ageSecs now md.mtime}s > {maxAgeSecs}s\n"
      pure ()
    else pure ()

/-- `expire_stale_cur`. -/
def expireStaleCur (fuel maxAgeSecs : ℕ) : Prog Resp (Except Errno Unit) := do
  match ← fs (.openDir .cur) with
  | .error e => pure (.error e)
  | .ok () =>
    let now ← fs .now
    Prog.whileSome Errno.other (fs .nextEntry)
      (fun _ ent => expireEntry maxAgeSecs now ent.name) fuel ()

end GhaConsumer

import GhaConsumer.Spool.Model

/-!
# GC — pruning

What `gc.rs` deletes by age: archive markers, serial logs and JIT blobs.
The three passes read a directory, skip what is not a regular file of
their kind or not old enough, and unlink the rest. The archive pass looks
again under the archive lock before it unlinks, the blob pass looks again
without it, and the log pass does not look again.
-/

namespace GhaConsumer

open Interleave
open Files (Errno Meta DirEntry)

/-- A regular file older than `maxAgeSecs` at time `now`. -/
def outlived (md : Meta) (now maxAgeSecs : ℕ) : Bool :=
  md.kind == .regular && maxAgeSecs < ageSecs now md.mtime

/-- Treat each entry of the directory opened; a failure to read on ends
the pass. -/
def forEntries (fuel : ℕ) (f : String → Prog Resp Unit) : Prog Resp Unit := do
  let _ ← Prog.whileSome Errno.other (fs .nextEntry)
    (fun _ (ent : DirEntry String) => f ent.name) fuel ()
  pure ()

/-- `prune_archive_dir_inner` at one entry. -/
def pruneArchiveEntry (dir : Dir) (retentionSecs now : ℕ) (name : String) : Prog Resp Unit := do
  match ← fs (.lstat ⟨dir, name⟩) with
  | .error _ => pure ()
  | .ok md =>
    if !outlived md now retentionSecs then pure ()
    else
      sched .lockArchive
      match ← fs (.lstat ⟨dir, name⟩) with
      | .error _ => sched .unlockArchive
      | .ok fresh =>
        if !outlived fresh now retentionSecs then sched .unlockArchive
        else
          let _ ← fs (.removeFile ⟨dir, name⟩)
          sched .unlockArchive

/-- `prune_archive_dir`. -/
def pruneArchiveDir (fuel : ℕ) (dir : Dir) (retentionSecs : ℕ) : Prog Resp Unit := do
  match ← fs (.openDir dir) with
  | .error _ => pure ()
  | .ok () =>
    let now ← fs .now
    forEntries fuel (pruneArchiveEntry dir retentionSecs now)

/-- `prune_old_archives`. -/
def pruneOldArchives (fuel retentionSecs : ℕ) : Prog Resp Unit := do
  if retentionSecs = 0 then pure ()
  else
    pruneArchiveDir fuel .done retentionSecs
    pruneArchiveDir fuel .error retentionSecs

/-- `prune_serial_logs` at one entry. -/
def pruneSerialLog (retentionSecs now : ℕ) (name : String) : Prog Resp Unit := do
  if !(".serial.log".toList.isSuffixOf name.toList) then pure ()
  else
    match ← fs (.lstat ⟨.logs, name⟩) with
    | .error _ => pure ()
    | .ok md =>
      if !outlived md now retentionSecs then pure ()
      else
        let _ ← fs (.removeFile ⟨.logs, name⟩)
        pure ()

/-- `prune_serial_logs`. -/
def pruneSerialLogs (fuel retentionSecs : ℕ) : Prog Resp Unit := do
  if retentionSecs = 0 then pure ()
  else
    match ← fs (.openDir .logs) with
    | .error _ => pure ()
    | .ok () =>
      let now ← fs .now
      forEntries fuel (pruneSerialLog retentionSecs now)

/-- `prune_stale_jit_blobs_inner` at one entry: each look has a clock
reading of its own. -/
def pruneJitBlob (maxAgeSecs : ℕ) (name : String) : Prog Resp Unit := do
  if !(".jit".toList.isSuffixOf name.toList) then pure ()
  else
    match ← fs (.lstat ⟨.instances, name⟩) with
    | .error _ => pure ()
    | .ok md =>
      let now ← fs .now
      if !outlived md now maxAgeSecs then pure ()
      else
        match ← fs (.lstat ⟨.instances, name⟩) with
        | .error _ => pure ()
        | .ok fresh =>
          let later ← fs .now
          if !outlived fresh later maxAgeSecs then pure ()
          else
            let _ ← fs (.removeFile ⟨.instances, name⟩)
            pure ()

/-- `prune_stale_jit_blobs`. -/
def pruneStaleJitBlobs (fuel maxAgeSecs : ℕ) : Prog Resp Unit := do
  match ← fs (.openDir .instances) with
  | .error _ => pure ()
  | .ok () => forEntries fuel (pruneJitBlob maxAgeSecs)

end GhaConsumer

import GhaConsumer.Daemon.Lima
import GhaConsumer.Gc.Prune

/-!
# Calls of functions

The sweep and the reconciler are written over the functions they call
rather than over system calls, so that a history of theirs reads as the
source does: this claim was finalized, that VM was deleted. `Call.impl`
is what each such call does on the host.
-/

namespace GhaConsumer

open Interleave
open Files (Errno)

/-- A call of the host, or of a function of the spool, of Lima or of the
archive. -/
inductive Call where
  | host (o : Op)
  | finalizeError (cur reason : String)
  | writeSyntheticClaim (job : JobStatus) (fullName : String)
  | expireStaleCur (maxAgeSecs : ℕ)
  | pruneOldArchives (retentionSecs : ℕ)
  | pruneSerialLogs (retentionSecs : ℕ)
  | pruneStaleJitBlobs (maxAgeSecs : ℕ)
  /-- `Lima::stop`. -/
  | stop (vm : String)
  /-- `Lima::delete`. -/
  | delete (vm : String)
  /-- `Lima::list_instances`. -/
  | listInstances
  deriving DecidableEq

abbrev Call.Resp : Call → Type
  | .host o => GhaConsumer.Resp o
  | .finalizeError .. | .stop _ | .delete _ => Except String Unit
  | .writeSyntheticClaim .. => Except String (Option String)
  | .expireStaleCur _ => Except Errno Unit
  | .pruneOldArchives _ | .pruneSerialLogs _ | .pruneStaleJitBlobs _ => Unit
  | .listInstances => Except String (List (String × Option String))

/-- A program over these calls. -/
abbrev Proc (α : Type) : Type := Prog Call.Resp α

/-- What each call does. -/
def Call.impl (cfg : Config) (fuel : ℕ) : (c : Call) → Prog GhaConsumer.Resp c.Resp
  | .host o => Prog.op o
  | .finalizeError cur reason => GhaConsumer.finalizeError cur reason
  | .writeSyntheticClaim job fullName => GhaConsumer.writeSyntheticClaim cfg job fullName
  | .expireStaleCur maxAgeSecs => GhaConsumer.expireStaleCur fuel maxAgeSecs
  | .pruneOldArchives retentionSecs => GhaConsumer.pruneOldArchives fuel retentionSecs
  | .pruneSerialLogs retentionSecs => GhaConsumer.pruneSerialLogs fuel retentionSecs
  | .pruneStaleJitBlobs maxAgeSecs => GhaConsumer.pruneStaleJitBlobs fuel maxAgeSecs
  | .stop vm => Lima.stopVm vm
  | .delete vm => Lima.deleteVm cfg.codec vm
  | .listInstances => Lima.listInstances cfg.codec

/-- One call. -/
abbrev call (c : Call) : Proc c.Resp := Prog.op c

end GhaConsumer

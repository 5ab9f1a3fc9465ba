import GhaConsumer.Spool.Model

/-!
# Lima

The functions of `lima/mod.rs` over the `limactl` commands. `delete` is
the one that matters to its callers: it reports success only where the
VM is gone, and asks the listing where the command itself did not say
so.
-/

namespace GhaConsumer

open Interleave

/-- The timeouts of the commands, in seconds. -/
def startTimeout : ℕ := 300
def stopTimeout : ℕ := 60
def deleteTimeout : ℕ := 60
def copyTimeout : ℕ := 60
def listTimeout : ℕ := 30

/-- `VM_PER_JOB_COMMAND_BUDGET`, in seconds. -/
def vmPerJobCommandBudget : ℕ :=
  startTimeout + copyTimeout + stopTimeout + deleteTimeout + 2 * listTimeout

namespace Lima

/-- `Lima::start`. -/
def startVm (name : String) : Prog GhaConsumer.Resp (Except String Unit) := do
  match ← lima (.start name) with
  | .error e => pure (.error e)
  | .ok status =>
    if status.success then pure (.ok ())
    else pure (.error s!"limactl start {name} exited {status.text}")

/-- `Lima::copy_into`, of the JIT blob. -/
def copyJit (name : String) : Prog GhaConsumer.Resp (Except String Unit) := do
  match ← lima (.copyInto name) with
  | .error e => pure (.error e)
  | .ok status =>
    if status.success then pure (.ok ())
    else pure (.error s!"limactl copy {name}.jit -> {name}:/tmp/jit exited {status.text}")

/-- `Lima::stop`: whatever the command's status. -/
def stopVm (name : String) : Prog GhaConsumer.Resp (Except String Unit) := do
  match ← lima (.stop name) with
  | .error e => pure (.error e)
  | .ok _ => pure (.ok ())

/-- `Lima::list_instances`. -/
def listInstances (C : Codec) :
    Prog GhaConsumer.Resp (Except String (List (String × Option String))) := do
  match ← lima .list with
  | .error e => pure (.error e)
  | .ok (status, stdout, stderr) =>
    if status.success then
      pure (.ok ((parseListJson C stdout).map fun i => (i.name, i.dir)))
    else pure (.error s!"limactl list exited {status.text}: {stderr}")

/-- `Lima::instance_exists`. -/
def instanceExists (C : Codec) (name : String) : Prog GhaConsumer.Resp (Except String Bool) := do
  match ← listInstances C with
  | .error e => pure (.error s!"re-list to confirm delete of {name}: {e}")
  | .ok instances => pure (.ok (instances.any fun i => i.1 == name))

/-- What `delete` reports of a command that did not succeed, where the VM
still exists. -/
def survived (name : String) : Outcome → String
  | .ok status => s!"limactl delete {name} exited {status.text} and {name} still exists"
  | .error e => s!"limactl delete {name} failed and {name} still exists: {e}"

/-- `Lima::delete`. -/
def deleteVm (C : Codec) (name : String) : Prog GhaConsumer.Resp (Except String Unit) := do
  let outcome ← lima (.delete name)
  if exitedOk outcome then pure (.ok ())
  else
    match ← instanceExists C name with
    | .error e => pure (.error e)
    | .ok true => pure (.error (survived name outcome))
    | .ok false => pure (.ok ())

/-- `SERIAL_TAIL_BYTES` of the first of these files that can be read. -/
def tailOf (dir : String) : List String → Prog GhaConsumer.Resp (Option String)
  | [] => pure none
  | fname :: fnames => do
    match ← lima (.readTail dir fname) with
    | .ok (some tail) => pure (some tail)
    | _ => tailOf dir fnames

/-- `Lima::serial_log_tail`. -/
def serialLogTail (C : Codec) (name : String) :
    Prog GhaConsumer.Resp (Except String (Option String)) := do
  match ← listInstances C with
  | .error e => pure (.error s!"list instances to locate serial console: {e}")
  | .ok instances =>
    match instances.find? fun i => i.1 == name with
    | some (_, some dir) => do
      let tail ← tailOf dir ["serialv.log", "serial.log"]
      pure (.ok tail)
    | _ => pure (.ok none)

end Lima

end GhaConsumer

import GhaConsumer.Daemon.Calls
import GhaConsumer.Runner.Model
import Mathlib.Data.List.AList

/-!
# GC — the model

The passes of `gc.rs`: the reap at startup and the periodic sweep. Each
reads `cur/`, asks what VMs and runners there are, decides by a pure plan
and carries the plan out. A `cur/` that cannot be read is no live set,
not an empty one.
-/

namespace GhaConsumer

open Interleave
open Files (Errno DirEntry)

abbrev hostFs (o : Files.Op Dir String) : Proc (Files.Resp o) := call (.host (.fs o))

abbrev hostSched (o : Sched.Op) : Proc (Sched.Resp o) := call (.host (.sched o))

abbrev hostLima (o : Lima.Op) : Proc (Lima.Resp o) := call (.host (.lima o))

abbrev hostHub (o : Hub.Op) : Proc (Hub.Resp o) := call (.host (.hub o))

/-! ## Ages -/

/-- `GH_ROUNDTRIPS_PER_CALL`. -/
def ghRoundtripsPerCall : ℕ := 6

def u64Max : ℕ := 2 ^ 64 - 1

/-- `u64::saturating_add`. -/
def satAdd (a b : ℕ) : ℕ := min (a + b) u64Max

/-- `u64::saturating_mul`. -/
def satMul (a b : ℕ) : ℕ := min (a * b) u64Max

/-- `cur_claim_max_age_secs`. -/
def curClaimMaxAgeSecs (cfg : Config) : ℕ :=
  let ghCalls := if cfg.jobCompletionCheck then 3 else 2
  let apiBudget := satMul (satMul cfg.apiTimeoutSecs.toNat ghRoundtripsPerCall) ghCalls
  satAdd (satAdd cfg.jobMaxRuntimeSecs.toNat apiBudget) vmPerJobCommandBudget

/-! ## Claims -/

/-- VM names to the `cur/` files that claim them. -/
abbrev ClaimMap := AList fun _ : String => String

/-- `live_vm_map_from_cur` at one entry. -/
def addClaim (out : ClaimMap) (ent : DirEntry String) : Proc ClaimMap :=
  match parseSpoolFilename ent.name with
  | none => pure out
  | some id => do
    match ← hostFs (.fileType ent) with
    | .ok (.other _) => pure out
    | _ => pure (out.insert (vmName id) ent.name)

/-- `live_vm_map_from_cur`. -/
def liveVmMapFromCur (fuel : ℕ) : Proc (Except Errno ClaimMap) := do
  match ← hostFs (.openDir .cur) with
  | .error e => pure (.error e)
  | .ok () => Prog.whileSome Errno.other (hostFs .nextEntry) addClaim fuel ∅

/-! ## Plans -/

/-- `ManagedVm`. -/
structure ManagedVm where
  name : String
  image : Option ImageIdentity
  deriving DecidableEq, Repr

/-- `VmReap`. -/
inductive VmReap where
  | orphan (name : String)
  | staleImage (name cur vmLocation : String)
  deriving DecidableEq, Repr

/-- `plan_vm_reaps` at one VM. -/
def planVmReap (live : ClaimMap) (current : Option ImageIdentity) (vm : ManagedVm) :
    Option VmReap :=
  match live.lookup vm.name with
  | none => some (.orphan vm.name)
  | some cur =>
    match current, vm.image with
    | some current, some image =>
      if isStaleImage image current then some (.staleImage vm.name cur image.location) else none
    | _, _ => none

/-- `plan_vm_reaps`. -/
def planVmReaps (managed : List ManagedVm) (live : Option ClaimMap)
    (current : Option ImageIdentity) : List VmReap :=
  match live with
  | none => []
  | some live => managed.filterMap (planVmReap live current)

/-- `StartupFinalizeReason`, by its message. -/
inductive StartupFinalizeReason where
  | reapedVm
  | noVm
  deriving DecidableEq, Repr

/-- `StartupFinalizeReason::message`. -/
def StartupFinalizeReason.message : StartupFinalizeReason → String
  | .reapedVm => "startup: reaped orphan VM (fresh consumer cannot re-adopt)"
  | .noVm =>
    "startup: claim had no live VM (crashed between claim and VM creation); reconciler will re-mint"

/-- `plan_startup_claim_finalizes`: the files to finalize, with why. -/
def planStartupClaimFinalizes (order : HashOrder) (claims : ClaimMap)
    (present deleteFailed : List String) : List (String × StartupFinalizeReason) :=
  (order.list (claims.entries.map fun e => (e.1, e.2))).filterMap fun e =>
    if e.1 ∈ deleteFailed then none
    else some (e.2, if e.1 ∈ present then .reapedVm else .noVm)

/-- `plan_runner_reaps`. -/
def planRunnerReaps (runners : List Runner) (live : Option (List String)) : List Runner :=
  match live with
  | none => []
  | some live => runners.filter fun r =>
      isManagedVmName r.name && !live.contains r.name && (r.status == "offline" || !r.busy)

/-! ## Startup -/

/-- `STARTUP_DELETE_ATTEMPTS`. -/
def startupDeleteAttempts : ℕ := 3

/-- The attempts of `delete_with_retry`, where `left` follow this one. -/
def deleteRetrying (vm : String) : (left : ℕ) → Proc (Except String Unit)
  | 0 => call (.delete vm)
  | left + 1 => do
    match ← call (.delete vm) with
    | .ok () => pure (.ok ())
    | .error _ =>
      hostSched .sleep
      deleteRetrying vm left

/-- `delete_with_retry`. -/
def deleteWithRetry (vm : String) : Proc (Except String Unit) :=
  deleteRetrying vm (startupDeleteAttempts - 1)

/-- The VMs listed, and those that could not be deleted. -/
structure Reaped where
  present : List String
  deleteFailed : List String

/-- Stop and delete each managed VM listed. -/
def reapListed : Reaped → List (String × Option String) → Proc Reaped
  | reaped, [] => pure reaped
  | reaped, (name, _) :: rest =>
    if !isManagedVmName name then reapListed reaped rest
    else do
      let _ ← call (.stop name)
      match ← deleteWithRetry name with
      | .ok () => reapListed { reaped with present := name :: reaped.present } rest
      | .error _ =>
        reapListed ⟨name :: reaped.present, name :: reaped.deleteFailed⟩ rest

def finalizePlanned : List (String × StartupFinalizeReason) → Proc Unit
  | [] => pure ()
  | (cur, reason) :: rest => do
    let _ ← call (.finalizeError cur reason.message)
    finalizePlanned rest

/-- `reap_all_managed_vms_at_startup`. -/
def reapAllManagedVmsAtStartup (cfg : Config) (fuel : ℕ) : Proc Unit := do
  let claims ← liveVmMapFromCur fuel
  match ← call .listInstances with
  | .error _ => pure ()
  | .ok instances =>
    let reaped ← reapListed ⟨[], []⟩ instances
    finalizePlanned (planStartupClaimFinalizes cfg.order (claims.toOption.getD ∅) reaped.present
      reaped.deleteFailed)

/-! ## The sweep: VMs -/

/-- `current_template_image`. -/
def currentTemplateImage : Proc (Option ImageIdentity) := do
  match ← hostLima .readTemplate with
  | .error _ => pure none
  | .ok yaml => pure (parseImageIdentity yaml)

/-- `vm_booted_image`. -/
def vmBootedImage : Option String → Proc (Option ImageIdentity)
  | none => pure none
  | some dir => do
    match ← hostLima (.readYaml dir) with
    | .error _ => pure none
    | .ok yaml => pure (parseImageIdentity yaml)

/-- The image of a listed VM, read only where a claim names it. -/
def imageIfClaimed (live : Option ClaimMap) (name : String) (dir : Option String) :
    Proc (Option ImageIdentity) :=
  if (live.bind fun m => m.lookup name).isSome then vmBootedImage dir else pure none

/-- The managed VMs of a listing, each with its image. -/
def managedOf (live : Option ClaimMap) : List (String × Option String) → Proc (List ManagedVm)
  | [] => pure []
  | (name, dir) :: rest =>
    if !isManagedVmName name then managedOf live rest
    else do
      let image ← imageIfClaimed live name dir
      let managed ← managedOf live rest
      pure (⟨name, image⟩ :: managed)

/-- The inventory: nothing where the listing failed. -/
def managedVms (live : Option ClaimMap) : Proc (List ManagedVm) := do
  match ← call .listInstances with
  | .error _ => pure []
  | .ok instances => managedOf live instances

/-- One reap; `reaped` are the stale VMs destroyed so far. -/
def reapVm (currentLocation : String) (reaped : List String) : VmReap → Proc (List String)
  | .orphan name => do
    hostSched (.log (.orphanVm name))
    let _ ← call (.stop name)
    let _ ← call (.delete name)
    pure reaped
  | .staleImage name cur vmLocation => do
    hostSched (.log (.staleVm name))
    let _ ← call (.stop name)
    match ← call (.delete name) with
    | .error _ => pure reaped
    | .ok () =>
      let reason :=
        s!"gc: reaped stale-image VM ({sanitizeForLog vmLocation} != {currentLocation})"
      let _ ← call (.finalizeError cur reason)
      pure (name :: reaped)

def reapVms (currentLocation : String) : List String → List VmReap → Proc (List String)
  | reaped, [] => pure reaped
  | reaped, reap :: rest => do
    let reaped ← reapVm currentLocation reaped reap
    reapVms currentLocation reaped rest

/-- The VM pass of the sweep: the stale VMs destroyed. -/
def vmPass (fuel : ℕ) : Proc (List String) := do
  let claims ← liveVmMapFromCur fuel
  let live := claims.toOption
  let current ← currentTemplateImage
  let managed ← managedVms live
  reapVms ((current.map fun c => sanitizeForLog c.location).getD "") []
    (planVmReaps managed live current)

/-! ## The sweep: runners -/

/-- The claims' VM names, less those reaped: `None` where `cur/` could
not be read. -/
def liveLessReaped (reaped : List String) : Except Errno ClaimMap → Option (List String)
  | .error _ => none
  | .ok claims => some (claims.keys.filter fun name => !reaped.contains name)

/-- `plan_runner_reaps_from_cur`. -/
def planRunnerReapsFromCur (fuel : ℕ) (runners : List Runner) (reaped : List String) :
    Proc (List Runner) := do
  let claims ← liveVmMapFromCur fuel
  pure (planRunnerReaps runners (liveLessReaped reaped claims))

def deleteRunners (owner repo : String) : List Runner → Proc Unit
  | [] => pure ()
  | r :: rest => do
    hostSched (.log (.orphanRunner r.name))
    let _ ← hostHub (.deleteRunner owner repo r.id)
    deleteRunners owner repo rest

/-- The runner pass of the sweep, over the repositories. -/
def runnerPass (fuel : ℕ) (reaped : List String) : List String → Proc Unit
  | [] => pure ()
  | repoFull :: rest =>
    match splitOnce repoFull with
    | none => runnerPass fuel reaped rest
    | some (owner, repo) => do
      match ← hostHub (.listRunners owner repo vmNamePrefix) with
      | .error _ => runnerPass fuel reaped rest
      | .ok runners =>
        let reaps ← planRunnerReapsFromCur fuel runners reaped
        deleteRunners owner repo reaps
        runnerPass fuel reaped rest

/-- `sweep_inner`. -/
def sweepInner (cfg : Config) (fuel : ℕ) : Proc (Except Errno Unit) := do
  match ← call (.expireStaleCur (curClaimMaxAgeSecs cfg)) with
  | .error e => pure (.error e)
  | .ok () =>
    call (.pruneOldArchives cfg.archiveRetentionSecs.toNat)
    call (.pruneSerialLogs cfg.serialLogRetentionSecs.toNat)
    call (.pruneStaleJitBlobs (curClaimMaxAgeSecs cfg))
    let reaped ← vmPass fuel
    runnerPass fuel reaped cfg.allowedRepos
    pure (.ok ())

end GhaConsumer

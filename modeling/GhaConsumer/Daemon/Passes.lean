import GhaConsumer.Daemon.Shape

/-!
# The daemon — what a sweep may call

Everything a sweep calls, whatever it is answered: it stops and deletes
managed VMs alone, and asks GitHub about the repositories of the allowlist
alone (`sweepInner_calls`).
-/

namespace GhaConsumer

open Interleave Prog

/-- The calls of the VM pass, of functions. -/
def Call.ofVmPass : Call → Prop
  | .host (.lima .readTemplate) | .host (.lima (.readYaml _)) | .host (.sched (.log _))
  | .finalizeError .. | .listInstances => True
  | .stop vm | .delete vm => isManagedVmName vm = true
  | c => c.ReadsDir

/-- The calls of a sweep, of functions. -/
def Call.ofSweep (cfg : Config) : Call → Prop
  | .host (.hub (.listRunners owner repo _)) | .host (.hub (.deleteRunner owner repo _)) =>
    ∃ repoFull ∈ cfg.allowedRepos, splitOnce repoFull = some (owner, repo)
  | .expireStaleCur _ | .pruneOldArchives _ | .pruneSerialLogs _ | .pruneStaleJitBlobs _ => True
  | c => c.ofVmPass

variable {cfg : Config} {fuel : ℕ} {c : Call}

theorem Call.ReadsDir.ofVmPass (h : c.ReadsDir) : c.ofVmPass := by
  cases c with
  | host o =>
    cases o with
    | fs => exact h
    | sched | lima | hub => exact h.elim
  | _ => exact h.elim

theorem Call.ofVmPass.ofSweep (h : c.ofVmPass) : c.ofSweep cfg := by
  cases c with
  | host o =>
    cases o with
    | hub => exact h.elim
    | _ => exact h
  | expireStaleCur | pruneOldArchives | pruneSerialLogs | pruneStaleJitBlobs => trivial
  | _ => exact h

theorem Call.inspects.ofVmPass (h : c.inspects) : c.ofVmPass := by
  unfold Call.inspects at h
  split at h
  · trivial
  · trivial
  · exact h.elim

/-! ## VMs -/

/-- Only managed VMs are taken into the inventory. -/
theorem managedOf_returns (live : Option ClaimMap) (rows : List (String × Option String)) :
    (managedOf live rows).Returns fun vms => ∀ vm ∈ vms, isManagedVmName vm.name = true := by
  induction rows with
  | nil => exact fun vm hvm => by cases hvm
  | cons row rest ih =>
    obtain ⟨name, dir⟩ := row
    unfold managedOf
    split
    · exact ih
    · rename_i hmanaged
      refine (Prog.returns_true _).bind fun image _ => ih.bind fun vms hvms => ?_
      exact List.forall_mem_cons.mpr ⟨by simpa using hmanaged, hvms⟩

theorem managedVms_returns (live : Option ClaimMap) :
    (managedVms live).Returns fun vms => ∀ vm ∈ vms, isManagedVmName vm.name = true := by
  refine .step fun r => ?_
  split
  · exact fun vm hvm => by cases hvm
  · exact managedOf_returns live _

/-- The VM of a planned reap. -/
def VmReap.vm : VmReap → String
  | .orphan name => name
  | .staleImage name _ _ => name

/-- Only VMs of the inventory are planned for. -/
theorem managed_of_plan {managed : List ManagedVm} {live : Option ClaimMap}
    {current : Option ImageIdentity} {reap : VmReap}
    (hmanaged : ∀ vm ∈ managed, isManagedVmName vm.name = true)
    (h : reap ∈ planVmReaps managed live current) : isManagedVmName reap.vm = true := by
  cases live with
  | none => cases h
  | some out =>
    obtain ⟨vm, hvm, hplan⟩ := List.mem_filterMap.mp h
    unfold planVmReap at hplan
    split at hplan
    · cases hplan
      exact hmanaged vm hvm
    · split at hplan
      · split at hplan <;> cases hplan
        exact hmanaged vm hvm
      · cases hplan

theorem reapVms_calls (currentLocation : String) (reaped : List String) {plan : List VmReap}
    (hplan : ∀ reap ∈ plan, isManagedVmName reap.vm = true) :
    (reapVms currentLocation reaped plan).Only Call.ofVmPass := by
  induction plan generalizing reaped with
  | nil => trivial
  | cons reap rest ih =>
    have hvm := hplan reap List.mem_cons_self
    have hreap : (reapVm currentLocation reaped reap).Only Call.ofVmPass := by
      cases reap with
      | orphan name => exact .step trivial fun _ => .step hvm fun _ => .step hvm fun _ => trivial
      | staleImage name cur vmLocation =>
        refine .step trivial fun _ => .step hvm fun _ => .step hvm fun r => ?_
        split
        · trivial
        · exact .step trivial fun _ => trivial
    exact hreap.bind fun reaped => ih reaped fun reap' h => hplan reap' (List.mem_cons_of_mem _ h)

theorem vmPass_calls : (vmPass fuel).Only Call.ofVmPass := by
  refine (liveVmMapFromCur_only fun _ => Call.ReadsDir.ofVmPass).bind fun claims => ?_
  have htemplate : currentTemplateImage.Only Call.ofVmPass := by
    refine .step trivial fun r => ?_
    split <;> trivial
  refine htemplate.bind fun current => ?_
  exact ((managedVms_only _).mono fun _ => Call.inspects.ofVmPass).bind_returns
    (managedVms_returns _) fun vms hvms => reapVms_calls _ _ fun reap h => managed_of_plan hvms h

/-! ## Runners -/

theorem runnerPass_calls (reaped repos : List String) (hrepos : ∀ full ∈ repos, full ∈ cfg.allowedRepos) :
    (runnerPass fuel reaped repos).Only (Call.ofSweep cfg) := by
  induction repos with
  | nil => trivial
  | cons repoFull rest ih =>
    have hrest := ih fun full hmem => hrepos full (List.mem_cons_of_mem _ hmem)
    unfold runnerPass
    split
    · exact hrest
    · rename_i owner repo hsplit
      have hallowed := hrepos repoFull List.mem_cons_self
      refine .step ⟨repoFull, hallowed, hsplit⟩ fun r => ?_
      split
      · exact hrest
      · refine Prog.Only.bind ((liveVmMapFromCur_only fun _ hc => hc.ofVmPass.ofSweep).bind fun _ =>
          trivial) fun reaps => ?_
        have hdelete : (deleteRunners owner repo reaps).Only (Call.ofSweep cfg) := by
          induction reaps with
          | nil => trivial
          | cons r rest ih =>
            exact .step trivial fun _ => .step ⟨repoFull, hallowed, hsplit⟩ fun _ => ih
        exact hdelete.bind fun _ => hrest

/-! ## The sweep -/

/-- **Every call of a sweep.** -/
theorem sweepInner_calls : (sweepInner cfg fuel).Only (Call.ofSweep cfg) := by
  refine .step trivial fun r => ?_
  split
  · trivial
  · exact .step trivial fun _ => .step trivial fun _ => .step trivial fun _ =>
      (vmPass_calls.mono fun _ hc => hc.ofSweep).bind fun reaped =>
        (runnerPass_calls reaped _ fun _ h => h).bind fun _ => trivial

end GhaConsumer

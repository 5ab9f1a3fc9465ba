import GhaConsumer.Daemon.Reaps

/-!
# The daemon — VMs taken for orphans

The sweep reads `cur/`, then lists the VMs, and stops and deletes those
that no claim it read names; no VM just started is among them, its source
says, since a claim is written long before its VM is listed. That is a
matter of time and not of order: a job claimed after the read may have its
VM started before the listing, or before the stop. Where no job has been
claimed between the read and the stop or delete of its VM, no VM in use is
taken for an orphan (`sparesInUse_of_unclaimed`).
-/

namespace GhaConsumer

namespace OrphanVms

open Interleave Daemon Sight Reaps
open Slots (slot)

/-- The VM is in use: its job has its claim in `cur/`, and a worker that
has started the VM is at work on it. -/
def InUse (vm : String) (w : World) (τ : Daemon.History) : Prop :=
  ∃ u cur event r, working u τ = some (cur, event) ∧ vmNameForEvent event = vm ∧
    ⟨.lima (.start vm), r⟩ ∈ Entry.own u τ ∧ Claimed w event.workflowJob.id

/-- No VM in use is stopped or deleted as an orphan. -/
def SparesInUse (τ : Daemon.History) : Prop :=
  ∀ t o r w σ vm, .did t .gc o r w :: σ <:+ τ → reaped o = some vm →
    lastLog (Entry.own t σ) = some (.orphanVm vm) → ¬ InUse vm w σ

/-- No VM is stopped or deleted as an orphan whose job has been claimed
since the sweep opened `cur/`. -/
def Unclaimed (s : Daemon.State) (x : Line) : Prop :=
  ∀ t o r w vm id, x = .did t .gc o r w → reaped o = some vm →
    lastLog (Entry.own t s.trace) = some (.orphanVm vm) → vmName id = vm →
      jobFileName id ∉ claimedSince t s.trace

variable {cfg : Config} {fuel : ℕ} {c₀ c : Pool}

/-- **VMs in use are spared** in every run in which no job is claimed
between the sweep's read of `cur/` and the stop or delete of its VM as an
orphan. -/
theorem sparesInUse_of_unclaimed (h₀ : Daemon.Start cfg fuel c₀)
    (hr : (machine cfg fuel).Run Unclaimed c₀ c) : SparesInUse c.trace := by
  rintro t o r w σ vm hsuf hreap hlog ⟨u, cur, event, -, -, hvm, -, hclaimed⟩
  have hcollector : t = collector := Ownership.place_of_line h₀ hr hsuf
  obtain ⟨c₁, c₂, hr₁, rfl, rfl, -, -, hunclaimed⟩ := hr.exists_of_line h₀.trace hsuf
  rcases (Reaps.good_line h₀ hr hsuf).vm rfl vm hreap with hstale | ⟨-, v, hv, hended, hunlisted⟩
  · rw [hlog] at hstale
    cases hstale
  · have hsince : jobFileName event.workflowJob.id ∉ claimedSince t c₁.trace :=
      hunclaimed t o r _ vm _ rfl hreap hlog hvm
    -- the claim has stood since the read began, so the read has returned it
    rcases sees_run h₀ hr₁ (by rw [hcollector]; decide) _ hclaimed hsince v hv with
      hseen | ⟨hgoing, -⟩
    · refine hunlisted _ hseen ?_
      rw [claimedVm_jobFileName]
      exact congrArg some hvm
    · rw [hended] at hgoing
      cases hgoing

/-! ## A job claimed meanwhile -/

/-- A reap of the VM of 42, as a history shows it. -/
structure Reap where
  vm : Option String
  log : Option Sched.LogLine
  /-- The job thread 3 works at. -/
  job : Option JobId
  /-- Whether it has started the VM. -/
  started : Bool
  /-- What stands in the job's slot. -/
  claim : Option Files.Kind
  deriving DecidableEq

/-- The last line, where it is the collector's. -/
def lastReap (c : Pool) : Option Reap :=
  match c.trace with
  | .did t .gc o _ w :: σ => some {
      vm := reaped o
      log := lastLog (Entry.own t σ)
      job := (working 3 σ).map (·.2.workflowJob.id)
      started := (Entry.own 3 σ).any (·.1 == .lima (.start (vmName 42)))
      claim := (w.fs.tree.ino (slot 42)).map fun i => (w.fs.tree.node i).kind }
  | _ => none

/-- `n` calls of thread `t`: what directories offer, the VMs listed, and
the job queued; thread 3 is the next to be started. -/
def calls {fuel : ℕ} (t : Tid) (n : ℕ) (entry : Option String) (listing : String) (id : JobId) :
    List (machine sampleConfig fuel).Move :=
  .replicate n (.call t (Answers.oracle {
    fs := ⟨false, 0, entry.map fun name => ⟨name, .regular⟩⟩
    sched := ⟨"", 3⟩
    lima := ⟨.ok ⟨true, ""⟩, true, true, listing.toUTF8.toList, "", some "/vm", none⟩
    hub := ⟨none, true, "", [], none, none, [{ sampleStatus with id := id }]⟩ }))

/-- The sweep reads an empty `cur/`; the reconciler claims 42 and its
worker starts the VM; the sweep lists it, and stops it. -/
def adoptedSchedule : List (machine sampleConfig 1).Move :=
  calls collector 9 none "x\n" 42 ++ calls reconciler 21 none "x\n" 42 ++
    calls 3 6 none "x\n" 42 ++ calls collector 3 none "x\n" 42

theorem adopted_sample :
    ((machine sampleConfig 1).follow (fun _ _ => true) adoptedSchedule
      (Pause.samplePool (.sample [] 0))).map lastReap =
      some (some ⟨some (vmName 42), some (.orphanVm (vmName 42)), some 42, true,
        some .regular⟩) := by
  decide +kernel

/-- **A VM just started is stopped as an orphan**: its job was claimed
after the sweep had read `cur/`, and its VM started before the sweep
listed the VMs. -/
theorem reaps_inUse :
    ∃ c₀ c, Daemon.Start sampleConfig 1 c₀ ∧
      (machine sampleConfig 1).Run (fun _ _ => True) c₀ c ∧ ¬ SparesInUse c.trace := by
  obtain ⟨c, hc, hlast⟩ := Option.map_eq_some_iff.mp adopted_sample
  refine ⟨_, c, Pause.samplePool_start rfl rfl rfl rfl,
    (Machine.run_of_follow hc).mono fun _ _ _ => trivial, fun hspares => ?_⟩
  unfold lastReap at hlast
  split at hlast
  · rename_i t o r w σ htrace
    simp only [Option.some.injEq, Reap.mk.injEq] at hlast
    obtain ⟨hreap, hlog, hworking, hstarted, hkind⟩ := hlast
    obtain ⟨⟨cur, event⟩, hw, hid⟩ := Option.map_eq_some_iff.mp hworking
    have hid : event.workflowJob.id = 42 := hid
    obtain ⟨⟨o', r'⟩, hmem, hstart⟩ := List.any_eq_true.mp hstarted
    obtain rfl : o' = .lima (.start (vmName 42)) := eq_of_beq hstart
    obtain ⟨i, hi, hkind⟩ := Option.map_eq_some_iff.mp hkind
    refine hspares t o r w σ (vmName 42) (by rw [htrace]) hreap hlog
      ⟨3, cur, event, r', hw, by rw [vmNameForEvent, hid], hmem, i, ?_, hkind⟩
    rw [hid]
    exact hi
  · cases hlast

/-- A VM no claim names, left behind on the host. -/
def strayWorld : World :=
  { World.sample [] 0 with lima := ⟨[⟨0, vmName 42, some "/vm", ""⟩], 1, ""⟩ }

/-- The reconciler claims 43 and its worker starts the VM; the sweep reads
`cur/`, lists both VMs, and stops the one left behind. -/
def strayedSchedule : List (machine sampleConfig 2).Move :=
  let claim := some "43.job"
  calls reconciler 21 none "" 43 ++ calls 3 6 none "" 43 ++ calls collector 3 none "" 43 ++
    calls collector 1 claim "" 43 ++ calls collector 3 none "" 43 ++
    calls collector 1 (some (vmName 43 ++ ".jit")) "" 43 ++ calls collector 4 none "" 43 ++
    calls collector 1 claim "" 43 ++ calls collector 7 none "x\ny\n" 43

/-- No VM is reaped but that of 42, and 42 is not claimed meanwhile. -/
def sparesOthers (s : Daemon.State) : Line → Bool
  | .did t .gc o _ _ =>
    match reaped o with
    | some vm => vm == vmName 42 && !(claimedSince t s.trace).contains (jobFileName 42)
    | none => true
  | _ => true

theorem unclaimed_of_sparesOthers {s : Daemon.State} {x : Line} (h : sparesOthers s x = true) :
    Unclaimed s x := by
  rintro t o r w vm id rfl hreap - hvm
  simp only [sparesOthers, hreap, Bool.and_eq_true, beq_iff_eq, Bool.not_eq_true',
    List.contains_eq_mem, decide_eq_false_iff_not] at h
  obtain rfl : id = 42 := vmName_injective (hvm.trans h.1)
  exact h.2

theorem strayed_sample :
    ((machine sampleConfig 2).follow sparesOthers strayedSchedule (pool strayWorld)).map
      (fun c => (lastReap c, c.world.lima.vms.map (·.name))) =
      some (some ⟨some (vmName 42), some (.orphanVm (vmName 42)), some 43, false, none⟩,
        [vmName 43, vmName 42]) := by
  decide +kernel

/-- A VM left behind is stopped as the orphan it is, beside one in use. -/
theorem sparesInUse_stray :
    ∃ c, (machine sampleConfig 2).Run Unclaimed (pool strayWorld) c ∧
      lastReap c = some ⟨some (vmName 42), some (.orphanVm (vmName 42)), some 43, false, none⟩ ∧
      c.world.lima.vms.map (·.name) = [vmName 43, vmName 42] ∧ SparesInUse c.trace := by
  obtain ⟨c, hc, hlast⟩ := Option.map_eq_some_iff.mp strayed_sample
  obtain ⟨hreap, hvms⟩ := Prod.mk.inj hlast
  have hr : (machine sampleConfig 2).Run Unclaimed (pool strayWorld) c :=
    (Machine.run_of_follow hc).mono fun _ _ => unclaimed_of_sparesOthers
  exact ⟨c, hr, hreap, hvms, sparesInUse_of_unclaimed (pool_start rfl rfl rfl rfl) hr⟩

end OrphanVms

end GhaConsumer

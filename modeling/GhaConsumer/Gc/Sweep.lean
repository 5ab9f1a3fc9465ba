import GhaConsumer.Gc.Reading
import GhaConsumer.Host.Sample

/-!
# GC — what a sweep touches

One run of `sweep_inner` with nothing else going on, whatever the calls
answer: no VM is stopped or deleted, no claim finalized and no runner
deleted but for the reason the plans give, and that reason can be read
off the history before the call (`sweepInner_justified`).
-/

namespace GhaConsumer

open Interleave Trace

/-! ## Reasons -/

/-- The image a listed VM booted, as its YAML gave it. -/
def BootedImage (τ : Calls) (vm : String) (image : ImageIdentity) : Prop :=
  ∃ rows dir yaml, ⟨.listInstances, .ok rows⟩ ∈ τ ∧ (vm, some dir) ∈ rows ∧
    ⟨.host (.lima (.readYaml dir)), .ok yaml⟩ ∈ τ ∧ parseImageIdentity yaml = some image

/-- The template's image. -/
def TemplateImage (τ : Calls) (image : ImageIdentity) : Prop :=
  ∃ yaml, ⟨.host (.lima .readTemplate), .ok yaml⟩ ∈ τ ∧ parseImageIdentity yaml = some image

/-- Why a VM may be stopped or deleted: `cur/` has been read, the name is
managed, and where a claim names the VM, both images are known and the
VM's is stale. -/
def VmJustified (τ : Calls) (vm : String) : Prop :=
  ∃ listed, reading τ = .done listed ∧ isManagedVmName vm = true ∧
    ((∃ name ∈ listed, claimedVm name = some vm) →
      ∃ image current, BootedImage τ vm image ∧ TemplateImage τ current ∧
        isStaleImage image current = true)

/-- Why a claim may be finalized: it was listed, and its VM's delete has
returned `Ok`. -/
def ClaimJustified (τ : Calls) (cur : String) : Prop :=
  ∃ listed vm, reading τ = .done listed ∧ cur ∈ listed ∧ claimedVm cur = some vm ∧
    ⟨.delete vm, .ok ()⟩ ∈ τ

/-- Why a runner may be deleted: GitHub listed it, with a managed name and
offline or not busy, and `cur/`, read since, names it in no claim, or its
VM's delete has returned `Ok`. -/
def RunnerJustified (τ : Calls) (owner repo : String) (id : ℕ) : Prop :=
  ∃ runners r listed, ⟨.host (.hub (.listRunners owner repo vmNamePrefix)), .ok runners⟩ ∈ τ ∧
    r ∈ runners ∧ r.id = id ∧ isManagedVmName r.name = true ∧
    (r.status = "offline" ∨ r.busy = false) ∧ reading τ = .done listed ∧
    ((∀ name ∈ listed, claimedVm name ≠ some r.name) ∨ ⟨.delete r.name, .ok ()⟩ ∈ τ)

/-- What a sweep may call, and when. -/
def SweepJustified (τ : Calls) : Event Call.Resp → Prop
  | ⟨.stop vm, _⟩ | ⟨.delete vm, _⟩ => VmJustified τ vm
  | ⟨.finalizeError cur _, _⟩ => ClaimJustified τ cur
  | ⟨.host (.hub (.deleteRunner owner repo id)), _⟩ => RunnerJustified τ owner repo id
  | ⟨.host (.hub (.listRunners ..)), _⟩ | ⟨.host (.sched (.log _)), _⟩
  | ⟨.host (.lima .readTemplate), _⟩ | ⟨.host (.lima (.readYaml _)), _⟩ | ⟨.listInstances, _⟩
  | ⟨.expireStaleCur _, _⟩ | ⟨.pruneOldArchives _, _⟩ | ⟨.pruneSerialLogs _, _⟩
  | ⟨.pruneStaleJitBlobs _, _⟩ => True
  | ⟨c, _⟩ => c.ReadsDir

theorem readsDir_justified (τ : Calls) (e : Event Call.Resp) (h : e.1.ReadsDir) :
    SweepJustified τ e := by
  obtain ⟨c, r⟩ := e
  simp only [Call.ReadsDir] at h
  split at h
  · exact trivial
  · exact trivial
  · exact trivial
  · exact h.elim

/-! ## Calls that do not read `cur/` -/

/-- The call is no part of a read of `cur/`. -/
def Quiet (c : Call) : Prop := ∀ (r : c.Resp) (τ : Calls), reading (⟨c, r⟩ :: τ) = reading τ

theorem kept_readOf (claims : Except Files.Errno ClaimMap) : Kept Quiet (ReadOf claims) := by
  intro c r τ hc hτ
  unfold ReadOf at *
  rwa [hc]

theorem lasting_booted {vm : String} {image : ImageIdentity} :
    Lasting fun τ => BootedImage τ vm image := by
  rintro e τ ⟨rows, dir, yaml, hrows, hvm, hyaml, hparse⟩
  exact ⟨rows, dir, yaml, List.mem_cons_of_mem _ hrows, hvm, List.mem_cons_of_mem _ hyaml, hparse⟩

theorem lasting_template {image : ImageIdentity} : Lasting fun τ => TemplateImage τ image := by
  rintro e τ ⟨yaml, hyaml, hparse⟩
  exact ⟨yaml, List.mem_cons_of_mem _ hyaml, hparse⟩

/-! ## The VM pass -/

variable {B : Calls → Prop} {current : Option ImageIdentity} {managed : List ManagedVm}

/-- What is known of the template when it has been read. -/
def KnowsTemplate (current : Option ImageIdentity) (τ : Calls) : Prop :=
  ∀ image, current = some image → TemplateImage τ image

/-- What is known of the VMs when they have been listed. -/
def KnowsVms (managed : List ManagedVm) (τ : Calls) : Prop :=
  ∀ vm ∈ managed, isManagedVmName vm.name = true ∧
    ∀ image, vm.image = some image → BootedImage τ vm.name image

/-- The stale VMs counted as reaped have been deleted. -/
def Deleted (reaped : List String) (τ : Calls) : Prop :=
  ∀ vm ∈ reaped, ⟨.delete vm, .ok ()⟩ ∈ τ

theorem lasting_knowsTemplate (current : Option ImageIdentity) : Lasting (KnowsTemplate current) :=
  fun e τ h image hi => lasting_template e τ (h image hi)

theorem lasting_knowsVms (managed : List ManagedVm) : Lasting (KnowsVms managed) :=
  fun e τ h vm hvm => ⟨(h vm hvm).1, fun image hi => lasting_booted e τ ((h vm hvm).2 image hi)⟩

theorem lasting_deleted (reaped : List String) : Lasting (Deleted reaped) :=
  fun _ _ h vm hvm => List.mem_cons_of_mem _ (h vm hvm)

theorem currentTemplateImage_sweep (hB : Kept Quiet B) :
    Triple SweepJustified B currentTemplateImage fun current τ =>
      B τ ∧ KnowsTemplate current τ := by
  refine Triple.step (B := fun r τ => B τ ∧ ⟨.host (.lima .readTemplate), r⟩ ∈ τ)
    (fun τ r hτ => ⟨trivial, hB _ _ _ (fun _ _ => rfl) hτ, List.mem_cons_self ..⟩) fun r => ?_
  split
  · exact Triple.ret fun τ h => ⟨h.1, fun image hi => by cases hi⟩
  · rename_i yaml
    exact Triple.ret fun τ h => ⟨h.1, fun image hi => ⟨yaml, h.2, hi⟩⟩

/-- A listed VM's image, where its YAML is read. -/
theorem vmBootedImage_sweep (hB : Kept Quiet B) {vm : String} {dir : Option String}
    {rows : List (String × Option String)} (hrow : (vm, dir) ∈ rows) :
    Triple SweepJustified (fun τ => B τ ∧ ⟨.listInstances, .ok rows⟩ ∈ τ) (vmBootedImage dir)
      fun image τ => (B τ ∧ ⟨.listInstances, .ok rows⟩ ∈ τ) ∧
        ∀ i, image = some i → BootedImage τ vm i := by
  cases dir with
  | none => exact Triple.ret fun τ h => ⟨h, fun i hi => by cases hi⟩
  | some dir =>
    have hB' := hB.and (Lasting.mem (e := ⟨.listInstances, .ok rows⟩)).kept
    refine Triple.step (B := fun r τ => (B τ ∧ ⟨.listInstances, .ok rows⟩ ∈ τ) ∧
        ⟨.host (.lima (.readYaml dir)), r⟩ ∈ τ)
      (fun τ r hτ => ⟨trivial, hB' _ _ _ (fun _ _ => rfl) hτ, List.mem_cons_self ..⟩) fun r => ?_
    split
    · exact Triple.ret fun τ h => ⟨h.1, fun i hi => by cases hi⟩
    · rename_i yaml
      exact Triple.ret fun τ h => ⟨h.1, fun i hi => ⟨rows, dir, yaml, h.1.2, hrow, h.2, hi⟩⟩

theorem imageIfClaimed_sweep (hB : Kept Quiet B) {live : Option ClaimMap} {vm : String}
    {dir : Option String} {rows : List (String × Option String)} (hrow : (vm, dir) ∈ rows) :
    Triple SweepJustified (fun τ => B τ ∧ ⟨.listInstances, .ok rows⟩ ∈ τ)
      (imageIfClaimed live vm dir) fun image τ => (B τ ∧ ⟨.listInstances, .ok rows⟩ ∈ τ) ∧
        ∀ i, image = some i → BootedImage τ vm i := by
  unfold imageIfClaimed
  split
  · exact vmBootedImage_sweep hB hrow
  · exact Triple.ret fun τ h => ⟨h, fun i hi => by cases hi⟩

theorem managedOf_sweep (hB : Kept Quiet B) {live : Option ClaimMap}
    {rows rest : List (String × Option String)} (hsub : rest ⊆ rows) :
    Triple SweepJustified (fun τ => B τ ∧ ⟨.listInstances, .ok rows⟩ ∈ τ) (managedOf live rest)
      fun managed τ => (B τ ∧ ⟨.listInstances, .ok rows⟩ ∈ τ) ∧ KnowsVms managed τ := by
  induction rest generalizing B with
  | nil => exact Triple.ret fun τ h => ⟨h, fun vm hvm => by cases hvm⟩
  | cons row rest ih =>
    obtain ⟨name, dir⟩ := row
    have hrest : rest ⊆ rows := fun x hx => hsub (List.mem_cons_of_mem _ hx)
    unfold managedOf
    split
    · exact ih hB hrest
    · rename_i hmanaged
      refine (imageIfClaimed_sweep hB (hsub (List.mem_cons_self ..))).bind fun image => ?_
      -- what is known of the first VM is kept while the others are looked at
      have hfirst : Kept Quiet fun τ => ∀ i, image = some i → BootedImage τ name i :=
        Lasting.kept fun e τ h i hi => lasting_booted e τ (h i hi)
      refine ((ih (hB.and hfirst) hrest).pre fun τ h => ⟨⟨h.1.1, h.2⟩, h.1.2⟩).bind
        fun managed => Triple.ret fun τ h => ⟨⟨h.1.1.1, h.1.2⟩, ?_⟩
      intro vm hvm
      rcases List.mem_cons.mp hvm with rfl | hvm
      · exact ⟨by simpa using hmanaged, h.1.1.2⟩
      · exact h.2 vm hvm

theorem managedVms_sweep (hB : Kept Quiet B) {live : Option ClaimMap} :
    Triple SweepJustified B (managedVms live) fun managed τ => B τ ∧ KnowsVms managed τ := by
  refine Triple.step (B := fun r τ => B τ ∧ ⟨.listInstances, r⟩ ∈ τ)
    (fun τ r hτ => ⟨trivial, hB _ _ _ (fun _ _ => rfl) hτ, List.mem_cons_self ..⟩) fun r => ?_
  split
  · exact Triple.ret fun τ h => ⟨h.1, fun vm hvm => by cases hvm⟩
  · exact (managedOf_sweep hB (List.Subset.refl _)).post fun managed τ h => ⟨h.1.1, h.2⟩

/-- What justifies a planned reap: its VM, and the claim it finalizes. -/
def ReapJustified (τ : Calls) : VmReap → Prop
  | .orphan vm => VmJustified τ vm
  | .staleImage vm cur _ => VmJustified τ vm ∧
      ∃ listed, reading τ = .done listed ∧ cur ∈ listed ∧ claimedVm cur = some vm

theorem kept_reapJustified (reap : VmReap) : Kept Quiet fun τ => ReapJustified τ reap := by
  have hvm : ∀ vm, Kept Quiet fun τ => VmJustified τ vm := by
    rintro vm c r τ hc ⟨listed, hl, hm, himg⟩
    refine ⟨listed, (hc r τ).trans hl, hm, fun hn => ?_⟩
    obtain ⟨image, current, hb, ht, hs⟩ := himg hn
    exact ⟨image, current, lasting_booted _ _ hb, lasting_template _ _ ht, hs⟩
  cases reap with
  | orphan vm => exact hvm vm
  | staleImage vm cur loc =>
    rintro c r τ hc ⟨hj, listed, hl, hrest⟩
    exact ⟨hvm vm c r τ hc hj, listed, (hc r τ).trans hl, hrest⟩

/-- **The plan is justified** by what was read, listed and parsed. -/
theorem reapJustified_of_plan {claims : Except Files.Errno ClaimMap} {τ : Calls} {reap : VmReap}
    (hread : ReadOf claims τ) (htemplate : KnowsTemplate current τ) (hvms : KnowsVms managed τ)
    (hreap : reap ∈ planVmReaps managed claims.toOption current) : ReapJustified τ reap := by
  cases claims with
  | error e => cases hreap
  | ok out =>
    obtain ⟨listed, hl, hmaps⟩ := hread
    obtain ⟨vm, hvm, hplan⟩ := List.mem_filterMap.mp hreap
    obtain ⟨hmanaged, himage⟩ := hvms vm hvm
    unfold planVmReap at hplan
    split at hplan
    · -- no claim names an orphan
      rename_i hnone
      cases hplan
      rw [hmaps] at hnone
      exact ⟨listed, hl, hmanaged, fun ⟨name, hname, hclaims⟩ =>
        absurd hclaims (claimOf_eq_none.mp hnone name hname)⟩
    · rename_i cur hcur
      split at hplan
      · rename_i current image hvmImage
        split at hplan
        · rename_i hstale
          cases hplan
          obtain ⟨hmem, hclaims⟩ := claimOf_eq_some ((hmaps _).symm.trans hcur)
          exact ⟨⟨listed, hl, hmanaged, fun _ =>
            ⟨image, current, himage _ hvmImage, htemplate _ rfl, hstale⟩⟩, listed, hl, hmem, hclaims⟩
        · cases hplan
      · cases hplan

variable {reaped : List String}

/-- A reap that is justified keeps to its reason. -/
theorem reapVm_sweep (hB : Kept Quiet B) (loc : String) (reap : VmReap) :
    Triple SweepJustified (fun τ => (B τ ∧ Deleted reaped τ) ∧ ReapJustified τ reap)
      (reapVm loc reaped reap) fun reaped τ => B τ ∧ Deleted reaped τ := by
  have hB' := (hB.and (lasting_deleted reaped).kept).and
    (kept_reapJustified reap)
  cases reap with
  | orphan vm =>
    refine Triple.step (B := fun _ τ => (B τ ∧ Deleted reaped τ) ∧ ReapJustified τ (.orphan vm))
      (fun τ r hτ => ⟨trivial, hB' _ _ _ (fun _ _ => rfl) hτ⟩) fun _ => ?_
    refine Triple.step (B := fun _ τ => (B τ ∧ Deleted reaped τ) ∧ ReapJustified τ (.orphan vm))
      (fun τ r hτ => ⟨hτ.2, hB' _ _ _ (fun _ _ => rfl) hτ⟩) fun _ => ?_
    refine Triple.step (B := fun _ τ => (B τ ∧ Deleted reaped τ) ∧ ReapJustified τ (.orphan vm))
      (fun τ r hτ => ⟨hτ.2, hB' _ _ _ (fun _ _ => rfl) hτ⟩) fun _ => ?_
    exact Triple.ret fun τ h => h.1
  | staleImage vm cur vmLocation =>
    refine Triple.step
      (B := fun _ τ => (B τ ∧ Deleted reaped τ) ∧ ReapJustified τ (.staleImage vm cur vmLocation))
      (fun τ r hτ => ⟨trivial, hB' _ _ _ (fun _ _ => rfl) hτ⟩) fun _ => ?_
    refine Triple.step
      (B := fun _ τ => (B τ ∧ Deleted reaped τ) ∧ ReapJustified τ (.staleImage vm cur vmLocation))
      (fun τ r hτ => ⟨hτ.2.1, hB' _ _ _ (fun _ _ => rfl) hτ⟩) fun _ => ?_
    refine Triple.step (B := fun r τ => ((B τ ∧ Deleted reaped τ) ∧
        ReapJustified τ (.staleImage vm cur vmLocation)) ∧ ⟨.delete vm, r⟩ ∈ τ)
      (fun τ r hτ => ⟨hτ.2.1, hB' _ _ _ (fun _ _ => rfl) hτ, List.mem_cons_self ..⟩) fun r => ?_
    split
    · exact Triple.ret fun τ h => h.1.1
    · -- the delete has returned `Ok`: the claim may go, and the VM counts as reaped
      refine Triple.step (B := fun _ τ => B τ ∧ Deleted (vm :: reaped) τ) ?_ fun _ =>
        Triple.ret fun τ h => h
      rintro τ r ⟨⟨⟨hb, hd⟩, -, listed, hl, hmem, hclaims⟩, hdel⟩
      refine ⟨⟨listed, vm, hl, hmem, hclaims, hdel⟩, hB _ _ _ (fun _ _ => rfl) hb, fun v hv => ?_⟩
      rcases List.mem_cons.mp hv with rfl | hv
      · exact List.mem_cons_of_mem _ hdel
      · exact List.mem_cons_of_mem _ (hd v hv)

theorem reapVms_sweep (hB : Kept Quiet B) (loc : String) (plan : List VmReap)
    (hplan : ∀ τ, B τ → ∀ reap ∈ plan, ReapJustified τ reap) :
    Triple SweepJustified (fun τ => B τ ∧ Deleted reaped τ) (reapVms loc reaped plan)
      fun reaped τ => B τ ∧ Deleted reaped τ := by
  induction plan generalizing reaped with
  | nil => exact Triple.ret fun τ h => h
  | cons reap rest ih =>
    refine ((reapVm_sweep hB loc reap).pre fun τ h =>
      ⟨h, hplan τ h.1 reap (List.mem_cons_self ..)⟩).bind fun reaped => ?_
    exact ih fun τ hτ r hr => hplan τ hτ r (List.mem_cons_of_mem _ hr)

theorem vmPass_sweep (fuel : ℕ) :
    Triple SweepJustified (fun _ => True) (vmPass fuel) fun reaped τ => Deleted reaped τ := by
  refine (liveVmMapFromCur_reads readsDir_justified Lasting.true.kept fuel).bind fun claims => ?_
  refine ((currentTemplateImage_sweep (kept_readOf claims)).pre fun τ h => h.2).bind fun current => ?_
  have hknows := (kept_readOf claims).and
    (lasting_knowsTemplate current).kept
  refine (managedVms_sweep hknows).bind fun managed => ?_
  refine ((reapVms_sweep (hknows.and (lasting_knowsVms managed).kept) _ _
    fun τ h reap hreap => reapJustified_of_plan h.1.1 h.1.2 h.2 hreap).pre
      fun τ h => ⟨h, fun vm hvm => by cases hvm⟩).post fun reaped τ h => h.2

/-! ## The runner pass -/

/-- What is known of the runners to be deleted. -/
def RunnersJustified (owner repo : String) (runners : List Runner) (τ : Calls) : Prop :=
  ∀ r ∈ runners, RunnerJustified τ owner repo r.id

theorem kept_runnersJustified (owner repo : String) (runners : List Runner) :
    Kept Quiet (RunnersJustified owner repo runners) := by
  intro c e τ hc h r hr
  obtain ⟨rs, r', listed, hrs, hmem, hid, hm, hidle, hl, hwhy⟩ := h r hr
  exact ⟨rs, r', listed, List.mem_cons_of_mem _ hrs, hmem, hid, hm, hidle, (hc e τ).trans hl,
    hwhy.imp_right (List.mem_cons_of_mem _)⟩

theorem lasting_listed {e : Event Call.Resp} : Lasting fun τ => Deleted reaped τ ∧ e ∈ τ :=
  fun _ _ h => ⟨lasting_deleted _ _ _ h.1, List.mem_cons_of_mem _ h.2⟩

/-- A runner planned for deletion has no claim read since it was listed,
or a VM that has been deleted. -/
theorem planRunnerReapsFromCur_sweep (fuel : ℕ) {owner repo : String} {runners : List Runner} :
    Triple SweepJustified (fun τ => Deleted reaped τ ∧
        ⟨.host (.hub (.listRunners owner repo vmNamePrefix)), .ok runners⟩ ∈ τ)
      (planRunnerReapsFromCur fuel runners reaped) fun reaps τ =>
        Deleted reaped τ ∧ RunnersJustified owner repo reaps τ := by
  refine (liveVmMapFromCur_reads readsDir_justified lasting_listed.kept fuel).bind fun claims =>
    Triple.ret fun τ ⟨⟨hdel, hlisted⟩, hread⟩ => ⟨hdel, fun r hr => ?_⟩
  cases claims with
  | error e => cases hr
  | ok out =>
    obtain ⟨listed, hl, hmaps⟩ := hread
    simp only [planRunnerReaps, liveLessReaped, List.mem_filter, Bool.and_eq_true, Bool.or_eq_true,
      beq_iff_eq, Bool.not_eq_true', List.contains_eq_mem, decide_eq_false_iff_not] at hr
    obtain ⟨hmem, ⟨hmanaged, hunbacked⟩, hidle⟩ := hr
    refine ⟨runners, r, listed, hlisted, hmem, rfl, hmanaged, hidle, hl, ?_⟩
    by_cases hreaped : r.name ∈ reaped
    · exact .inr (hdel _ hreaped)
    · left
      have hkey : r.name ∉ out.keys := fun hk => hunbacked ⟨hk, hreaped⟩
      rw [← claimOf_eq_none, ← hmaps]
      exact AList.lookup_eq_none.mpr hkey

theorem deleteRunners_sweep {owner repo : String} {reaps : List Runner} :
    Triple SweepJustified (fun τ => Deleted reaped τ ∧ RunnersJustified owner repo reaps τ)
      (deleteRunners owner repo reaps) fun _ τ => Deleted reaped τ := by
  induction reaps with
  | nil => exact Triple.ret fun τ h => h.1
  | cons r rest ih =>
    have hB := (lasting_deleted reaped).kept.and
      (kept_runnersJustified owner repo (r :: rest))
    refine Triple.step (B := fun _ τ => Deleted reaped τ ∧ RunnersJustified owner repo (r :: rest) τ)
      (fun τ e hτ => ⟨trivial, hB _ _ _ (fun _ _ => rfl) hτ⟩) fun _ => ?_
    refine Triple.step (B := fun _ τ => Deleted reaped τ ∧ RunnersJustified owner repo (r :: rest) τ)
      (fun τ e hτ => ⟨hτ.2 r (List.mem_cons_self ..), hB _ _ _ (fun _ _ => rfl) hτ⟩) fun _ => ?_
    exact ih.pre fun τ h => ⟨h.1, fun r' hr' => h.2 r' (List.mem_cons_of_mem _ hr')⟩

theorem runnerPass_sweep (fuel : ℕ) (repos : List String) :
    Triple SweepJustified (Deleted reaped) (runnerPass fuel reaped repos) fun _ _ => True := by
  induction repos with
  | nil => exact Triple.ret fun _ _ => trivial
  | cons repoFull rest ih =>
    unfold runnerPass
    split
    · exact ih
    · rename_i owner repo _
      refine Triple.step (B := fun r τ => Deleted reaped τ ∧
          ⟨.host (.hub (.listRunners owner repo vmNamePrefix)), r⟩ ∈ τ)
        (fun τ r hτ => ⟨trivial, lasting_deleted _ _ _ hτ, List.mem_cons_self ..⟩) fun r => ?_
      split
      · exact ih.pre fun τ h => h.1
      · refine (planRunnerReapsFromCur_sweep fuel).bind fun reaps => ?_
        exact deleteRunners_sweep.bind fun _ => ih

/-- **A sweep keeps to its reasons.** Whatever `cur/` holds, whatever is
listed and whatever fails, each VM stopped or deleted, each claim
finalized and each runner deleted is justified by what the sweep has seen
before. -/
theorem sweepInner_justified (cfg : Config) (fuel : ℕ) {p : Proc (Except Files.Errno Unit)}
    {τ : Calls} (hs : Prog.Steps (sweepInner cfg fuel) [] p τ) :
    ∀ e σ, e :: σ <:+ τ → SweepJustified σ e := by
  have hplain : ∀ {c : Call} {f : c.Resp → Proc (Except Files.Errno Unit)},
      (∀ τ r, SweepJustified τ ⟨c, r⟩) →
      (∀ r, Triple SweepJustified (fun _ => True) (f r) fun _ _ => True) →
      Triple SweepJustified (fun _ => True) (call c >>= f) fun _ _ => True :=
    fun hc hf => Triple.step (B := fun _ _ => True) (fun τ r _ => ⟨hc τ r, trivial⟩) hf
  have htriple : Triple SweepJustified (fun _ => True) (sweepInner cfg fuel) fun _ _ => True := by
    refine hplain (fun _ _ => trivial) fun r => ?_
    split
    · exact Triple.ret fun _ _ => trivial
    · refine hplain (fun _ _ => trivial) fun _ => hplain (fun _ _ => trivial) fun _ =>
        hplain (fun _ _ => trivial) fun _ => ?_
      refine (vmPass_sweep fuel).bind fun reaped => ?_
      exact (runnerPass_sweep fuel cfg.allowedRepos).bind fun _ => Triple.ret fun _ _ => trivial
  exact htriple.steps trivial hs

/-- A sweep of one claim, `42.job`, whose VM booted another image than the
template names. -/
def staleSweep : List (Event Call.Resp) :=
  [⟨.expireStaleCur (curClaimMaxAgeSecs sampleConfig), .ok ()⟩, ⟨.pruneOldArchives 0, ()⟩,
    ⟨.pruneSerialLogs 0, ()⟩, ⟨.pruneStaleJitBlobs (curClaimMaxAgeSecs sampleConfig), ()⟩,
    ⟨.host (.fs (.openDir .cur)), .ok ()⟩,
    ⟨.host (.fs .nextEntry), .ok (some ⟨"42.job", .regular⟩)⟩,
    ⟨.host (.fs (.fileType ⟨"42.job", .regular⟩)), .ok .regular⟩,
    ⟨.host (.fs .nextEntry), .ok none⟩,
    ⟨.host (.lima .readTemplate), .ok "images:\n- location: /b.img"⟩,
    ⟨.listInstances, .ok [(vmName 42, some "/vm")]⟩,
    ⟨.host (.lima (.readYaml "/vm")), .ok "images:\n- location: /a.img"⟩,
    ⟨.host (.sched (.log (.staleVm (vmName 42)))), ()⟩, ⟨.stop (vmName 42), .ok ()⟩,
    ⟨.delete (vmName 42), .ok ()⟩]

/-- That sweep is one, and its calls are justified. -/
theorem staleSweep_justified :
    (∃ p, Prog.Steps (sweepInner sampleConfig 2) [] p staleSweep.reverse) ∧
      ∀ e σ, e :: σ <:+ staleSweep.reverse → SweepJustified σ e := by
  have h : (Prog.replay staleSweep (sweepInner sampleConfig 2)).isSome = true := by decide
  obtain ⟨p, hp⟩ := Option.isSome_iff_exists.mp h
  have hs := Prog.steps_replay (σ := []) .refl hp
  rw [List.append_nil] at hs
  exact ⟨⟨p, hs⟩, sweepInner_justified sampleConfig 2 hs⟩

end GhaConsumer

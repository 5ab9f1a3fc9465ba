import GhaConsumer.Daemon.Sight

/-!
# The daemon — what the sweep reaps

On what grounds the collector stops and deletes VMs and deletes runners,
as far as its own calls tell: a VM taken for an orphan, and a runner, are
named by no claim of the last read of `cur/`, and that read came after the
runners were listed; or else the runner's VM has been destroyed as stale
in the same sweep (`sound_habits`).
-/

namespace GhaConsumer

namespace Reaps

open Interleave Trace Daemon Sight
open Pause (Own)

/-! ## What the calls tell -/

/-- What the task has last said it is about to do. -/
def lastLog : Own → Option Sched.LogLine
  | [] => none
  | ⟨.sched (.log line), _⟩ :: _ => some line
  | _ :: τ => lastLog τ

/-- The runners last listed, for a repository. -/
def lastListed : Own → Option (String × String × List Runner)
  | [] => none
  | ⟨.hub (.listRunners owner repo _), .ok runners⟩ :: _ => some (owner, repo, runners)
  | ⟨.hub (.listRunners ..), .error _⟩ :: _ => none
  | _ :: τ => lastListed τ

/-- The VM the call stops or deletes. -/
def reaped : Op → Option String
  | .lima (.stop vm) | .lima (.delete vm) => some vm
  | _ => none

/-- The VM the call shows to be gone, having been deleted: the command
succeeded, or the listing after it does not have the VM. -/
def gone (C : Codec) : Own → Option String
  | ⟨.lima (.delete vm), outcome⟩ :: _ => if Lima.exitedOk outcome then some vm else none
  | ⟨.lima .list, .ok (status, stdout, _)⟩ :: ⟨.lima (.delete vm), _⟩ :: _ =>
    if status.success && !(parseListJson C stdout).any (·.name == vm) then some vm else none
  | _ => none

/-- The VM the call shows to be gone that was deleted as stale. -/
def destroys (C : Codec) (τ : Own) : Option String :=
  (gone C τ).filter fun vm => lastLog τ = some (.staleVm vm)

/-- The stale VMs destroyed since the sweep began. -/
def destroyed (C : Codec) : Own → List String
  | [] => []
  | ⟨.sched .sleep, _⟩ :: _ => []
  | e :: τ => (destroys C (e :: τ)).toList ++ destroyed C τ

/-- The read of `cur/` has come to its end and has returned no claim of
the VM. -/
def Unlisted (vm : String) (τ : Own) : Prop :=
  ∃ v, sight τ = some v ∧ v.ended = true ∧ ∀ ent ∈ v.seen, claimedVm ent.name ≠ some vm

/-- Why a runner may go: it was listed, and no claim read since names it,
or its VM has been destroyed as stale. -/
structure Unbacked (C : Codec) (owner repo : String) (r : Runner) (τ : Own) : Prop where
  listed : ∃ runners, lastListed τ = some (owner, repo, runners) ∧ r ∈ runners
  ended : ∃ v, sight τ = some v ∧ v.ended = true
  unlisted : Unlisted r.name τ ∨ r.name ∈ destroyed C τ

/-- What the collector makes sure of when it stops or deletes a VM, and
when it deletes a runner. -/
structure Good (cfg : Config) (k : Task) (τ : Own) (e : Event Resp) : Prop where
  vm : k = .gc → ∀ vm, reaped e.1 = some vm → lastLog τ = some (.staleVm vm) ∨
    lastLog τ = some (.orphanVm vm) ∧ Unlisted vm τ
  runner : k = .gc → ∀ owner repo id, e.1 = .hub (.deleteRunner owner repo id) →
    ∃ r : Runner, r.id = id ∧ lastLog τ = some (.orphanRunner r.name) ∧
      Unbacked cfg.codec owner repo r τ

/-! ## Calls that reap nothing -/

/-- The call reaps nothing, says nothing, and begins no sweep. -/
def Calm : Op → Prop
  | .lima (.stop _) | .lima (.delete _) | .hub (.deleteRunner ..) | .sched .sleep
  | .sched (.log _) => False
  | _ => True

section Habit

variable {cfg : Config} {fuel : ℕ} {C : Codec} {o : Op} {r : Resp o} {τ : Own} {k : Task}
variable {vm : String} {vms : List String} {claims : Except Files.Errno ClaimMap}

/-- A call that reaps nothing needs no grounds. -/
theorem good_of_spares (hvm : reaped o = none)
    (hrunner : ∀ owner repo id, o ≠ .hub (.deleteRunner owner repo id)) : Good cfg k τ ⟨o, r⟩ :=
  ⟨fun _ vm h => (by rw [hvm] at h; cases h),
    fun _ owner repo id h => absurd h (hrunner owner repo id)⟩

theorem Calm.good (ho : Calm o) : Good cfg k τ ⟨o, r⟩ := by
  refine good_of_spares ?_ fun owner repo id h => ?_
  · cases o with
    | lima o =>
      cases o with
      | stop | delete => exact ho.elim
      | _ => rfl
    | _ => rfl
  · subst h
    exact ho

/-- Files have nothing to do with it. -/
theorem calm_of_files (ho : o.files) : Calm o := by
  unfold Op.files at ho
  split at ho
  · trivial
  · trivial
  · trivial
  · exact ho.elim

/-- What has been destroyed stays so while the sweep lasts. -/
theorem destroyed_cons (ho : o ≠ .sched .sleep) (h : vm ∈ destroyed C τ) :
    vm ∈ destroyed C (⟨o, r⟩ :: τ) := by
  unfold destroyed
  split
  · rename_i heq
    cases heq
  · rename_i heq
    cases heq
    exact absurd rfl ho
  · rename_i heq
    cases heq
    exact List.mem_append_right _ h

/-- What is known of the claims, and of the VMs destroyed. -/
structure Knows (C : Codec) (claims : Except Files.Errno ClaimMap) (vms : List String) (τ : Own) :
    Prop where
  sight : SightOf claims τ
  destroyed : ∀ vm ∈ vms, vm ∈ destroyed C τ

theorem Knows.cons (h : Knows C claims vms τ) (hblind : Blind o) (hsleep : o ≠ .sched .sleep) :
    Knows C claims vms (⟨o, r⟩ :: τ) where
  sight out hout := by
    rw [hblind]
    exact h.sight out hout
  destroyed vm hvm := destroyed_cons hsleep (h.destroyed vm hvm)

/-- Calls that reap nothing and are no part of a read leave what is
known. -/
theorem knows_triple {α : Type} {p : Prog Resp α} (hp : p.Only fun o => Calm o ∧ Blind o) :
    Triple (Good cfg k) (Knows C claims vms) p fun _ => Knows C claims vms :=
  Triple.only hp fun _ _ _ ho hτ =>
    ⟨ho.1.good, hτ.cons ho.2 fun heq => by rw [heq] at ho; exact ho.1⟩

/-- No claim read names an orphan. -/
theorem Knows.unlisted {out : ClaimMap} (h : Knows C (.ok out) vms τ) (hvm : out.lookup vm = none) :
    Unlisted vm τ := by
  obtain ⟨v, hv, hended, hcov⟩ := h.sight out rfl
  refine ⟨v, hv, hended, fun ent hent hclaims => ?_⟩
  have := hcov ent hent vm hclaims
  rw [hvm] at this
  cases this

/-! ## The VM pass -/

theorem calm_lima {o : Lima.Op} (h : Reaps.reaped (.lima o) = none) :
    Calm (.lima o) ∧ Blind (.lima o) := by
  refine ⟨?_, blind_lima o⟩
  cases o with
  | stop | delete => cases h
  | _ => trivial

theorem currentTemplateImage_calm :
    (currentTemplateImage.lower (Call.impl cfg fuel)).Only fun o => Calm o ∧ Blind o := by
  refine .step (calm_lima rfl) fun r => ?_
  rcases r with e | yaml <;> trivial

theorem inspects_calm {c : Call} (hc : c.inspects) :
    (c.impl cfg fuel).Only fun o => Calm o ∧ Blind o := by
  unfold Call.inspects at hc
  split at hc
  · refine .step (calm_lima rfl) fun r => ?_
    split
    · trivial
    · split <;> trivial
  · exact Prog.only_op (calm_lima rfl)
  · exact hc.elim

theorem managedVms_calm {live : Option ClaimMap} :
    ((managedVms live).lower (Call.impl cfg fuel)).Only fun o => Calm o ∧ Blind o :=
  (managedVms_only live).lower _ fun _ => inspects_calm

/-- The grounds a VM is stopped and deleted on: they have been said, and
hold. -/
def Grounds (vm : String) (τ : Own) : Prop :=
  lastLog τ = some (.staleVm vm) ∨ lastLog τ = some (.orphanVm vm) ∧ Unlisted vm τ

theorem Grounds.good (h : Grounds vm τ) {o : Lima.Op} {r : Lima.Resp o}
    (ho : ∀ vm', reaped (.lima o) = some vm' → vm' = vm) : Good cfg k τ ⟨.lima o, r⟩ where
  vm _ vm' hvm' := by
    rw [ho vm' hvm']
    exact h
  runner _ _ _ _ he := by cases he

theorem Grounds.cons (h : Grounds vm τ) {o : Lima.Op} {r : Lima.Resp o} :
    Grounds vm (⟨.lima o, r⟩ :: τ) := h

/-- Commands about a VM there are grounds to reap. -/
theorem grounds_triple {α : Type} {p : Prog Resp α} {B : Own → Prop} (hB : ∀ o r τ, B τ → B (⟨.lima o, r⟩ :: τ))
    (hp : p.Only fun o => ∃ o', o = .lima o' ∧ ∀ vm', reaped (.lima o') = some vm' → vm' = vm) :
    Triple (Good cfg k) (fun τ => B τ ∧ Grounds vm τ) p fun _ τ => B τ ∧ Grounds vm τ :=
  Triple.only hp fun _ _ _ ho hτ => by
    obtain ⟨o', rfl, ho'⟩ := ho
    exact ⟨hτ.2.good ho', hB _ _ _ hτ.1, hτ.2.cons⟩

theorem stopVm_only : (Lima.stopVm vm).Only fun o =>
    ∃ o', o = .lima o' ∧ ∀ vm', reaped (.lima o') = some vm' → vm' = vm := by
  refine .step ⟨_, rfl, fun vm' h => (Option.some.inj h).symm⟩ fun r => ?_
  split <;> trivial

theorem deleteVm_only : (Lima.deleteVm C vm).Only fun o =>
    ∃ o', o = .lima o' ∧ ∀ vm', reaped (.lima o') = some vm' → vm' = vm := by
  refine .step ⟨_, rfl, fun vm' h => (Option.some.inj h).symm⟩ fun r => ?_
  split
  · trivial
  · refine Prog.Only.bind (Prog.Only.bind (.step ⟨_, rfl, nofun⟩ fun r => ?_) fun r => ?_) fun r => ?_
    · split
      · trivial
      · split <;> trivial
    · split <;> trivial
    · split <;> trivial

theorem mem_destroyed {e : Event Resp} (hsleep : e.1 ≠ .sched .sleep)
    (hgone : gone C (e :: τ) = some vm) (hlog : lastLog (e :: τ) = some (.staleVm vm)) :
    vm ∈ destroyed C (e :: τ) := by
  have hdestroys : destroys C (e :: τ) = some vm := by
    rw [destroys, hgone, Option.filter_some, if_pos (decide_eq_true hlog)]
  obtain ⟨o, r⟩ := e
  unfold destroyed
  split
  · rename_i heq
    cases heq
  · rename_i heq
    cases heq
    exact absurd rfl hsleep
  · rename_i heq
    cases heq
    rw [hdestroys]
    exact List.mem_append_left _ List.mem_cons_self

section Delete

variable {B : Own → Prop} (hB : ∀ o r τ, B τ → B (⟨.lima o, r⟩ :: τ))
include hB

/-- The VM is being deleted as stale, and this is how the command ended. -/
def Deleting (vm : String) (outcome : Lima.Outcome) (τ : Own) : Prop :=
  lastLog τ = some (.staleVm vm) ∧ ∃ σ, τ = ⟨.lima (.delete vm), outcome⟩ :: σ

/-- The listing after a delete shows whether the VM is gone. -/
theorem instanceExists_triple {outcome : Lima.Outcome} :
    Triple (Good cfg k) (fun τ => B τ ∧ Deleting vm outcome τ)
      (Lima.instanceExists cfg.codec vm) fun r τ =>
        B τ ∧ (r = .ok false → vm ∈ destroyed cfg.codec τ) := by
  have hlist : Triple (Good cfg k) (fun τ => B τ ∧ Deleting vm outcome τ)
      (Lima.listInstances cfg.codec) fun r τ => B τ ∧
        ∀ rows, r = .ok rows → rows.any (fun i => i.1 == vm) = false →
          vm ∈ destroyed cfg.codec τ := by
    refine Triple.step (o := Op.lima .list)
      (B := fun r τ => B τ ∧ lastLog τ = some (.staleVm vm) ∧
        ∃ σ, τ = ⟨.lima .list, r⟩ :: ⟨.lima (.delete vm), outcome⟩ :: σ)
      (fun τ r hτ => ⟨Grounds.good (.inl hτ.2.1) nofun, hB _ _ _ hτ.1, hτ.2.1, ?_⟩) fun r => ?_
    · obtain ⟨-, -, σ, rfl⟩ := hτ
      exact ⟨σ, rfl⟩
    split
    · exact Triple.ret fun τ hτ => ⟨hτ.1, nofun⟩
    · rename_i status stdout stderr
      split
      · rename_i hsuccess
        refine Triple.ret fun τ ⟨hτ, hlog, σ, heq⟩ => ⟨hτ, fun rows hrows hnone => ?_⟩
        subst heq
        cases hrows
        have hnone : (parseListJson cfg.codec stdout).any (·.name == vm) = false := by
          simpa [List.any_map] using hnone
        refine mem_destroyed (by simp) (if_pos ?_) hlog
        rw [hsuccess, hnone]
        rfl
      · exact Triple.ret fun τ hτ => ⟨hτ.1, nofun⟩
  refine hlist.bind fun r => ?_
  split
  · exact Triple.ret fun τ hτ => ⟨hτ.1, nofun⟩
  · rename_i rows
    refine Triple.ret fun τ hτ => ⟨hτ.1, fun hr => hτ.2 rows rfl (Except.ok.inj hr)⟩

/-- A delete that reports success shows the VM to be gone. -/
theorem deleteVm_triple :
    Triple (Good cfg k) (fun τ => B τ ∧ lastLog τ = some (.staleVm vm))
      (Lima.deleteVm cfg.codec vm) fun r τ =>
        B τ ∧ (r = .ok () → vm ∈ destroyed cfg.codec τ) := by
  refine Triple.step (o := Op.lima (.delete vm)) (B := fun outcome τ => B τ ∧ Deleting vm outcome τ)
    (fun τ outcome hτ => ⟨Grounds.good (.inl hτ.2) fun vm' h => (Option.some.inj h).symm,
      hB _ _ _ hτ.1, hτ.2, τ, rfl⟩) fun outcome => ?_
  split
  · rename_i hok
    refine Triple.ret fun τ ⟨hτ, hlog, σ, heq⟩ => ⟨hτ, fun _ => ?_⟩
    subst heq
    exact mem_destroyed (by simp) (if_pos hok) hlog
  · refine (instanceExists_triple hB).bind fun r => ?_
    split
    · exact Triple.ret fun τ hτ => ⟨hτ.1, nofun⟩
    · exact Triple.ret fun τ hτ => ⟨hτ.1, nofun⟩
    · exact Triple.ret fun τ hτ => ⟨hτ.1, fun _ => hτ.2 rfl⟩

end Delete

/-- What is known stays known as VMs are stopped and deleted. -/
theorem Knows.lima (h : Knows C claims vms τ) (o : Lima.Op) (r : Lima.Resp o) :
    Knows C claims vms (⟨.lima o, r⟩ :: τ) :=
  h.cons (blind_lima o) (by simp)

/-- What a planned reap has for grounds, when the time comes. -/
def Planned (claims : Except Files.Errno ClaimMap) : VmReap → Prop
  | .orphan vm => ∃ out : ClaimMap, claims = .ok out ∧ out.lookup vm = none
  | .staleImage .. => True

theorem planned_of_plan {managed : List ManagedVm} {current : Option ImageIdentity} {reap : VmReap}
    (h : reap ∈ planVmReaps managed claims.toOption current) : Planned claims reap := by
  cases claims with
  | error e => cases h
  | ok out =>
    obtain ⟨vm, -, hplan⟩ := List.mem_filterMap.mp h
    unfold planVmReap at hplan
    split at hplan
    · rename_i hnone
      cases hplan
      exact ⟨out, rfl, hnone⟩
    · split at hplan
      · split at hplan <;> cases hplan
        trivial
      · cases hplan

theorem reapVm_triple (loc : String) {reap : VmReap} (hreap : Planned claims reap) :
    Triple (Good cfg k) (Knows cfg.codec claims vms)
      ((reapVm loc vms reap).lower (Call.impl cfg fuel)) fun vms => Knows cfg.codec claims vms := by
  have hlog : ∀ {line : Sched.LogLine} {τ : Own} {r : Unit}, Knows cfg.codec claims vms τ →
      Good cfg k τ ⟨.sched (.log line), r⟩ ∧ Knows cfg.codec claims vms (⟨.sched (.log line), r⟩ :: τ) :=
    fun hτ => ⟨good_of_spares rfl (by simp), hτ.cons (blind_sched _) (by simp)⟩
  cases reap with
  | orphan vm =>
    obtain ⟨out, rfl, hnone⟩ := hreap
    refine Triple.step (o := Op.sched (.log (.orphanVm vm)))
      (B := fun _ τ => Knows cfg.codec (.ok out) vms τ ∧ Grounds vm τ)
      (fun τ r hτ => ⟨(hlog hτ).1, (hlog hτ).2, .inr ⟨rfl, (hlog hτ).2.unlisted hnone⟩⟩) fun _ => ?_
    refine Triple.lowerStep (grounds_triple (fun o r τ hτ => hτ.lima o r) stopVm_only) fun _ => ?_
    exact Triple.lowerStep (grounds_triple (fun o r τ hτ => hτ.lima o r) deleteVm_only) fun _ =>
      Triple.ret fun τ hτ => hτ.1
  | staleImage vm cur vmLocation =>
    refine Triple.step (o := Op.sched (.log (.staleVm vm)))
      (B := fun _ τ => Knows cfg.codec claims vms τ ∧ lastLog τ = some (.staleVm vm))
      (fun τ r hτ => ⟨(hlog hτ).1, (hlog hτ).2, rfl⟩) fun _ => ?_
    have hkeep : ∀ o r τ, Knows cfg.codec claims vms τ ∧ lastLog τ = some (.staleVm vm) →
        Knows cfg.codec claims vms (⟨.lima o, r⟩ :: τ) ∧
          lastLog (⟨.lima o, r⟩ :: τ) = some (.staleVm vm) :=
      fun o r τ hτ => ⟨hτ.1.lima o r, hτ.2⟩
    refine Triple.lowerStep (((grounds_triple hkeep stopVm_only).pre
      fun τ hτ => ⟨hτ, .inl hτ.2⟩).post fun _ τ hτ => hτ.1) fun _ => ?_
    refine Triple.lowerStep (deleteVm_triple fun o r τ hτ => hτ.lima o r) fun r => ?_
    split
    · exact Triple.ret fun τ hτ => hτ.1
    · have hdone : ∀ {reason : String}, Triple (Good cfg k) (Knows cfg.codec claims (vm :: vms))
          (finalizeError cur reason) fun _ => Knows cfg.codec claims (vm :: vms) :=
        fun {reason} => knows_triple ((finalizeError_only cur reason).mono fun _ ho =>
            ⟨calm_of_files ho.files, blind_of_finalizes ho⟩)
      refine Triple.lowerStep (hdone.pre fun τ hτ => ⟨hτ.1.sight, fun vm' hvm' => ?_⟩) fun _ =>
        Triple.ret fun τ hτ => hτ
      rcases List.mem_cons.mp hvm' with rfl | hvm'
      · exact hτ.2 rfl
      · exact hτ.1.destroyed vm' hvm'

theorem reapVms_triple (loc : String) {plan : List VmReap} (hplan : ∀ reap ∈ plan, Planned claims reap) :
    Triple (Good cfg k) (Knows cfg.codec claims vms)
      ((reapVms loc vms plan).lower (Call.impl cfg fuel)) fun vms => Knows cfg.codec claims vms := by
  induction plan generalizing vms with
  | nil => exact Triple.ret fun τ hτ => hτ
  | cons reap rest ih =>
    exact Triple.lowerBind (reapVm_triple loc (hplan reap List.mem_cons_self)) fun vms =>
      ih fun reap' h => hplan reap' (List.mem_cons_of_mem _ h)

theorem good_of_lists {o : Op} {r : Resp o} (ho : o.lists) : Good cfg k τ ⟨o, r⟩ := by
  refine Calm.good ?_
  unfold Op.lists at ho
  split at ho <;> trivial

/-- The VM pass returns the stale VMs it has destroyed. -/
theorem vmPass_triple :
    Triple (Good cfg k) (fun _ => True) ((vmPass fuel).lower (Call.impl cfg fuel))
      fun vms τ => ∀ vm ∈ vms, vm ∈ destroyed cfg.codec τ := by
  refine Triple.lowerBind ((liveVmMapFromCur_sight (fun _ _ _ ho => good_of_lists ho)
    Lasting.true.kept).post fun r τ hτ => (⟨hτ.2, nofun⟩ : Knows cfg.codec r [] τ)) fun claims => ?_
  refine Triple.lowerBind (knows_triple currentTemplateImage_calm) fun current => ?_
  refine Triple.lowerBind (knows_triple managedVms_calm) fun managed => ?_
  exact (reapVms_triple _ fun _ => planned_of_plan).post fun vms τ hτ => hτ.destroyed

/-! ## The runner pass -/

/-- The stale VMs destroyed, and what was listed last. -/
def Listed (C : Codec) (vms : List String) (owner repo : String) (runners : List Runner) (τ : Own) :
    Prop :=
  (∀ vm ∈ vms, vm ∈ destroyed C τ) ∧ lastListed τ = some (owner, repo, runners)

theorem kept_listed {owner repo : String} {runners : List Runner} :
    Kept Op.lists (Listed C vms owner repo runners) := by
  intro o r τ ho hτ
  refine ⟨fun vm hvm => destroyed_cons ?_ (hτ.1 vm hvm), ?_⟩
  · rintro rfl
    exact ho
  · unfold Op.lists at ho
    split at ho
    · exact hτ.2
    · exact hτ.2
    · exact hτ.2
    · exact ho.elim

theorem planRunnerReapsFromCur_triple {owner repo : String} {runners : List Runner} :
    Triple (Good cfg k) (Listed cfg.codec vms owner repo runners)
      ((planRunnerReapsFromCur fuel runners vms).lower (Call.impl cfg fuel)) fun reaps τ =>
        (∀ vm ∈ vms, vm ∈ destroyed cfg.codec τ) ∧
          ∀ r ∈ reaps, Unbacked cfg.codec owner repo r τ := by
  refine Triple.lowerBind (liveVmMapFromCur_sight (fun _ _ _ ho => good_of_lists ho) kept_listed)
    fun claims => Triple.ret fun τ ⟨hτ, hsight⟩ => ⟨hτ.1, fun r hr => ?_⟩
  cases claims with
  | error e => cases hr
  | ok out =>
    simp only [planRunnerReaps, liveLessReaped, List.mem_filter, Bool.and_eq_true, Bool.not_eq_true',
      List.contains_eq_mem, decide_eq_false_iff_not] at hr
    obtain ⟨hmem, ⟨-, hunbacked⟩, -⟩ := hr
    obtain ⟨v, hv, hended, -⟩ := hsight out rfl
    refine ⟨⟨runners, hτ.2, hmem⟩, ⟨v, hv, hended⟩, ?_⟩
    by_cases hreaped : r.name ∈ vms
    · exact .inr (hτ.1 _ hreaped)
    · left
      have hkey : r.name ∉ out.keys := fun hk => hunbacked ⟨hk, hreaped⟩
      have hknows : Knows cfg.codec (.ok out) [] τ := ⟨hsight, nofun⟩
      exact hknows.unlisted (AList.lookup_eq_none.mpr hkey)

theorem Unbacked.cons {owner repo : String} {r : Runner} (h : Unbacked C owner repo r τ) {o : Op}
    {x : Resp o} (hblind : Blind o) (hsleep : o ≠ .sched .sleep)
    (hlist : lastListed (⟨o, x⟩ :: τ) = lastListed τ) : Unbacked C owner repo r (⟨o, x⟩ :: τ) := by
  obtain ⟨hlisted, hended, hunlisted⟩ := h
  refine ⟨by rwa [hlist], by rwa [hblind], ?_⟩
  rcases hunlisted with hun | hd
  · refine .inl ?_
    unfold Unlisted
    rwa [hblind]
  · exact .inr (destroyed_cons hsleep hd)

theorem deleteRunners_triple {owner repo : String} {reaps : List Runner} :
    Triple (Good cfg k) (fun τ => (∀ vm ∈ vms, vm ∈ destroyed cfg.codec τ) ∧
        ∀ r ∈ reaps, Unbacked cfg.codec owner repo r τ)
      ((deleteRunners owner repo reaps).lower (Call.impl cfg fuel)) fun _ τ =>
        ∀ vm ∈ vms, vm ∈ destroyed cfg.codec τ := by
  induction reaps with
  | nil => exact Triple.ret fun τ hτ => hτ.1
  | cons r rest ih =>
    refine Triple.step (o := Op.sched (.log (.orphanRunner r.name)))
      (B := fun _ τ => ((∀ vm ∈ vms, vm ∈ destroyed cfg.codec τ) ∧
        ∀ r' ∈ r :: rest, Unbacked cfg.codec owner repo r' τ) ∧
          lastLog τ = some (.orphanRunner r.name))
      (fun τ x hτ => ⟨good_of_spares rfl (by simp), ⟨fun vm hvm =>
        destroyed_cons (by simp) (hτ.1 vm hvm), fun r' hr' =>
          (hτ.2 r' hr').cons (blind_sched _) (by simp) rfl⟩, rfl⟩) fun _ => ?_
    refine Triple.step (o := Op.hub (.deleteRunner owner repo r.id))
      (B := fun _ τ => (∀ vm ∈ vms, vm ∈ destroyed cfg.codec τ) ∧
        ∀ r' ∈ rest, Unbacked cfg.codec owner repo r' τ)
      (fun τ x hτ => ⟨⟨nofun, fun _ owner' repo' id h => ?_⟩,
        fun vm hvm => destroyed_cons (by simp) (hτ.1.1 vm hvm), fun r' hr' =>
          (hτ.1.2 r' (List.mem_cons_of_mem _ hr')).cons (fun _ _ => rfl) (by simp) rfl⟩) fun _ => ih
    cases h
    exact ⟨r, rfl, hτ.2, hτ.1.2 r List.mem_cons_self⟩

theorem runnerPass_triple (repos : List String) :
    Triple (Good cfg k) (fun τ => ∀ vm ∈ vms, vm ∈ destroyed cfg.codec τ)
      ((runnerPass fuel vms repos).lower (Call.impl cfg fuel)) fun _ _ => True := by
  induction repos with
  | nil => exact Triple.ret fun _ _ => trivial
  | cons repoFull rest ih =>
    unfold runnerPass
    split
    · exact ih
    · rename_i owner repo _
      refine Triple.step (o := Op.hub (.listRunners owner repo vmNamePrefix))
        (B := fun r τ => (∀ vm ∈ vms, vm ∈ destroyed cfg.codec τ) ∧
          ∀ runners, r = .ok runners → lastListed τ = some (owner, repo, runners))
        (fun τ r hτ => ⟨good_of_spares rfl (by simp), fun vm hvm =>
          destroyed_cons (by simp) (hτ vm hvm), ?_⟩) fun r => ?_
      · rintro runners rfl
        rfl
      · rcases r with e | runners
        · exact ih.pre fun τ hτ => hτ.1
        · show Triple (Good cfg k) _ ((planRunnerReapsFromCur fuel runners vms >>= fun reaps =>
            deleteRunners owner repo reaps >>= fun _ => runnerPass fuel vms rest).lower
              (Call.impl cfg fuel)) _
          refine Triple.lowerBind (planRunnerReapsFromCur_triple.pre fun τ hτ =>
            ⟨hτ.1, hτ.2 runners rfl⟩) fun reaps => ?_
          exact Triple.lowerBind deleteRunners_triple fun _ => ih

/-! ## The sweep -/

/-- Calls of the sweep before its two passes. -/
theorem calm_triple {α : Type} {p : Prog Resp α} (hp : p.Only Calm) :
    Triple (Good cfg k) (fun _ => True) p fun _ _ => True :=
  Triple.only hp fun _ _ _ ho _ => ⟨ho.good, trivial⟩

theorem sweepInner_triple :
    Triple (Good cfg k) (fun _ => True) ((sweepInner cfg fuel).lower (Call.impl cfg fuel))
      fun _ _ => True := by
  have hfiles : ∀ {c : Call}, c.ofFiles →
      Triple (Good cfg k) (fun _ => True) (c.impl cfg fuel) fun _ _ => True := fun hc =>
    calm_triple ((impl_files hc).mono fun _ => calm_of_files)
  refine Triple.lowerStep (hfiles (c := .expireStaleCur _) trivial) fun r => ?_
  split
  · exact Triple.ret fun _ _ => trivial
  · refine Triple.lowerStep (hfiles (c := .pruneOldArchives _) trivial) fun _ => ?_
    refine Triple.lowerStep (hfiles (c := .pruneSerialLogs _) trivial) fun _ => ?_
    refine Triple.lowerStep (hfiles (c := .pruneStaleJitBlobs _) trivial) fun _ => ?_
    exact Triple.lowerBind vmPass_triple fun vms =>
      Triple.lowerBind (runnerPass_triple _) fun _ => Triple.ret fun _ _ => trivial

variable (cfg fuel) in
/-- What the daemon's threads make sure of, by task. -/
def habits : Habits (machine cfg fuel) where
  good _ k := Good cfg k
  pre _ _ _ := True

theorem sound_habits : (habits cfg fuel).Sound where
  forks _ := trivial
  body t k := by
    have hpost : ∀ next τ, (habits cfg fuel).post t next τ := by
      intro next τ
      cases next <;> trivial
    by_cases hk : k = .gc
    · subst hk
      refine Triple.step (B := fun _ _ => True)
        (fun τ r _ => ⟨good_of_spares rfl (by simp), trivial⟩) fun _ => ?_
      exact sweepInner_triple.bind fun _ => Triple.ret fun τ _ => hpost _ τ
    · exact (Triple.of_only (Prog.only_true _) (Prog.returns_true _)
        fun o r τ _ => ⟨fun h => absurd h hk, fun h => absurd h hk⟩).post fun next τ _ => hpost next τ

/-- Every line of a run is good. -/
theorem good_line {c₀ c : Pool} (h₀ : Daemon.Start cfg fuel c₀)
    {Meets : Daemon.State → Line → Prop} (hr : (machine cfg fuel).Run Meets c₀ c) {t : Tid} {w : World}
    {τ : Daemon.History} (hsuf : .did t k o r w :: τ <:+ c.trace) :
    Good cfg k (Entry.own t τ) ⟨o, r⟩ :=
  sound_habits.line (h₀.habits trivial trivial trivial) hr hsuf

end Habit

/-! ## A host with an entry to read -/

/-- The daemon just started; it reads directories of one entry to their
end. -/
def pool (w : World) : Pool where
  world := w
  next := 3
  trace := []
  threads := Daemon.loops sampleConfig 2

theorem pool_start {w : World} (hcap : w.sched.capacity = sampleConfig.maxConcurrency)
    (hholders : w.sched.holders = []) (hlock : w.sched.archiveLock = none)
    (hscan : w.fs.scan = fun _ => none) : Daemon.Start sampleConfig 2 (pool w) :=
  ⟨rfl, rfl, rfl, hcap, hholders, hlock, hscan⟩

end Reaps

end GhaConsumer

import GhaConsumer.Control.Listing
import GhaConsumer.Daemon.Provenance
import GhaConsumer.Host.Registry
import GhaConsumer.Interleave.Lasting

/-!
# The daemon — what is not its own

A VM or a runner is the daemon's by its name: `gha-` and the sixteen
digits of an id, and, for a runner, a repository of the allowlist. What
goes by another name is left alone by every thread in every run
(`foreign_untouched`), though runners are deleted by id and the ids are
GitHub's: an id that was listed or minted names nothing else later. For
the same reason a worker that has ended leaves no runner behind that
GitHub has not refused to delete (`given_up_of_ended`).
-/

namespace GhaConsumer

namespace Foreign

open Interleave Trace Daemon

variable {cfg : Config} {fuel : ℕ} {c₀ c c' : Pool} {Meets : Daemon.State → Line → Prop}
variable {g : Hub.Registration} {id : ℕ}

/-! ## Ids -/

/-- A call to another part of the host leaves GitHub's runners alone. -/
theorem hub_of_step {C : Codec} {t : Tid} {o : Op} {q : Oracle o} {r : Resp o} {w w' : World}
    (h : step C t o q w = some (r, w')) (ho : ∀ o', o ≠ .hub o') : w'.hub = w.hub := by
  cases o with
  | hub o' => exact absurd rfl (ho o')
  | fs o' | sched o' | lima o' =>
    obtain ⟨⟨r', s⟩, hs, heq⟩ := Option.map_eq_some_iff.mp h
    cases heq
    rfl

/-- What GitHub's calls keep, and the outside's comings and goings, every
step keeps. -/
theorem lasting_hub {I : Hub.State → Prop}
    (hstep : ∀ {o q r s s'}, Hub.step o q s = some (r, s') → I s → I s')
    (hregister : ∀ {s owner repo name}, I s → I (s.register owner repo name))
    (hkeep : ∀ {s keep}, I s → I (s.keep keep)) :
    (machine cfg fuel).Lasting fun w => I w.hub where
  step {t o q r w w'} h hI := by
    have h : step cfg.codec t o q w = some (r, w') := h
    by_cases hhub : ∃ o', o = .hub o'
    · obtain ⟨o', rfl⟩ := hhub
      obtain ⟨s, hs, rfl⟩ := step_hub h
      exact hstep hs hI
    · rw [hub_of_step h fun o' ho => hhub ⟨o', ho⟩]
      exact hI
  leave hI := hI
  crash h := by cases h
  env {e w w'} h hI := by
    cases h
    cases e with
    | register owner repo name => exact hregister hI
    | deregister id' => exact hkeep hI
    | deliver | tick | setPaused => exact hI

/-- An id keeps its name in every run. -/
theorem lasting_names : (machine cfg fuel).Lasting fun w => w.hub.Names g :=
  lasting_hub (I := fun s => s.Names g) (fun hs h => h.step hs) (fun h => h.register) fun h => h.keep

/-- A runner gone stays gone in every run. -/
theorem lasting_gone : (machine cfg fuel).Lasting fun w => w.hub.Gone id :=
  lasting_hub (I := fun s => s.Gone id) (fun hs h => h.step hs) (fun h => h.register) fun h => h.keep

/-- A call of a run, at its step, and what was left of the run. -/
theorem step_since (h₀ : Daemon.Start cfg fuel c₀) (hr : (machine cfg fuel).Run Meets c₀ c) {t : Tid}
    {k : Task} {o : Op} {r : Resp o} {w : World} {τ : Daemon.History}
    (hsuf : .did t k o r w :: τ <:+ c.trace) :
    ∃ c₁ q w', (machine cfg fuel).Run Meets c₀ c₁ ∧ c₁.world = w ∧ c₁.trace = τ ∧
      step cfg.codec t o q w = some (r, w') ∧
      ∀ {I : World → Prop}, (machine cfg fuel).Lasting I → I w' → I c.world := by
  obtain ⟨c₁, c₂, hr₁, rfl, rfl, hs, hrest⟩ := hr.since h₀.trace hsuf
  cases hs with
  | call hat hq hnew => exact ⟨c₁, _, _, hr₁, rfl, rfl, hq, fun hI h => hI.run hrest h⟩

/-- A runner listed is still the only one of its id. -/
theorem names_of_listed (h₀ : Daemon.Start cfg fuel c₀) (hr : (machine cfg fuel).Run Meets c₀ c)
    {t : Tid} {owner repo pre : String} {runners : List Runner} {r : Runner}
    (hmem : ⟨.hub (.listRunners owner repo pre), .ok runners⟩ ∈ Entry.own t c.trace)
    (hr' : r ∈ runners) : c.world.hub.Names ⟨r.id, r.name, owner, repo⟩ := by
  obtain ⟨k, w, σ, hsuf⟩ := Entry.exists_of_own hmem
  obtain ⟨c₁, q, w', -, -, -, hq, hlast⟩ := step_since h₀ hr hsuf
  obtain ⟨s, hs, rfl⟩ := step_hub hq
  exact hlast lasting_names ((Hub.State.names_of_mem (Hub.listed_of_step hs r hr')).step hs)

/-- A runner minted is still the only one of its id. -/
theorem names_of_minted (h₀ : Daemon.Start cfg fuel c₀) (hr : (machine cfg fuel).Run Meets c₀ c)
    {t : Tid} {l : Life.Lease} {e : Event Resp} (hmint : Life.Minted l e)
    (hmem : e ∈ Entry.own t c.trace) :
    c.world.hub.Names ⟨l.jit.runnerId, l.vm, l.owner, l.repo⟩ := by
  obtain ⟨labels, rfl⟩ := hmint
  obtain ⟨k, w, σ, hsuf⟩ := Entry.exists_of_own hmem
  obtain ⟨c₁, q, w', -, -, -, hq, hlast⟩ := step_since h₀ hr hsuf
  obtain ⟨s, hs, rfl⟩ := step_hub hq
  obtain ⟨hid, rfl⟩ := Hub.minted_of_step hs
  refine hlast lasting_names (Hub.State.names_of_mem ?_)
  rw [hid]
  exact Hub.mem_register.mpr (.inl rfl)

/-! ## A worker that has ended -/

/-- **A worker that has ended has left no runner behind** that it was told
it had minted, or GitHub has refused it the deletion. -/
theorem given_up_of_ended (h₀ : Daemon.Start cfg fuel c₀) (hr : (machine cfg fuel).Run Meets c₀ c)
    {u : Tid} {cur : String} {event : WorkflowJob} {w : World} {σ : Daemon.History}
    {l : Life.Lease} {e : Event Resp} (hsuf : .ended u (.work cur event) w :: σ <:+ c.trace)
    (hmint : Life.Minted l e) (hmem : e ∈ Entry.own u σ) :
    (∀ g ∈ c.world.hub.runners, g.id ≠ l.jit.runnerId) ∨
      ∃ e', ⟨.hub (.deleteRunner l.owner l.repo l.jit.runnerId), .error e'⟩ ∈ Entry.own u σ := by
  obtain ⟨⟨o, r⟩, ρ, hdel, hmade, hearlier⟩ :
      Ordered (Life.givingUp l) (Entry.own u σ) :=
    (Life.givenUp_of_end h₀ hr hsuf l e hmint hmem).tail.tail
  obtain rfl : o = .hub (.deleteRunner l.owner l.repo l.jit.runnerId) := hmade
  rcases r with e' | ⟨⟨⟩⟩
  · exact .inr ⟨e', hdel.subset List.mem_cons_self⟩
  left
  -- the line of the deletion, and before it that of the minting
  obtain ⟨k, w₁, τ, hτ, hown⟩ := Entry.exists_of_own_suffix hdel
  obtain ⟨c₁, q, w', hr₁, rfl, rfl, hq, hlast⟩ :=
    step_since h₀ hr (hτ.trans ((List.suffix_cons _ _).trans hsuf))
  obtain ⟨e₁, hmem₁, hmint₁⟩ := hearlier.tail.tail.tail.mem
  have hnames := names_of_minted h₀ hr₁ hmint₁ (hown ▸ hmem₁)
  obtain ⟨s, hs, rfl⟩ := step_hub hq
  refine (hlast lasting_gone ?_).none
  have hnames' := hnames.step hs
  refine ⟨hnames'.given, fun g hg hid => ?_⟩
  obtain rfl := hnames'.only g hg hid
  exact Hub.deleted_of_step hs _ hg ⟨rfl, rfl, rfl⟩

/-- A worker that was told of its runner and has ended. -/
theorem given_up_of_ended_sample :
    ∃ c u w σ event l e, (machine sampleConfig 1).Run (fun _ _ => True)
        (Pause.samplePool (.sample [] 0)) c ∧
      .ended u (.work "42.job" event) w :: σ <:+ c.trace ∧ Life.Minted l e ∧ e ∈ Entry.own u σ ∧
      ((∀ g ∈ c.world.hub.runners, g.id ≠ l.jit.runnerId) ∨
        ∃ e', ⟨.hub (.deleteRunner l.owner l.repo l.jit.runnerId), .error e'⟩ ∈ Entry.own u σ) := by
  obtain ⟨c, hc, hlast⟩ := Option.map_eq_some_iff.mp Life.ended_sample
  have hr : (machine sampleConfig 1).Run (fun _ _ => True) _ c :=
    (Machine.run_of_follow hc).mono fun _ _ _ => trivial
  unfold Life.lastEnded at hlast
  split at hlast
  · rename_i u cur event w σ htrace
    simp only [Option.some.injEq, Prod.mk.injEq] at hlast
    obtain ⟨rfl, hany⟩ := hlast
    obtain ⟨e, hmem, hmint⟩ := List.any_eq_true.mp hany
    split at hmint
    · rename_i owner repo name labels jit
      have hsuf : .ended u (.work "42.job" event) w :: σ <:+ c.trace := htrace ▸ List.suffix_refl _
      have hminted : Life.Minted ⟨name, owner, repo, jit⟩
          ⟨.hub (.generateJitConfig owner repo name labels), .ok jit⟩ := ⟨labels, rfl⟩
      exact ⟨c, u, w, σ, event, _, _, hr, hsuf, hminted, hmem,
        given_up_of_ended (Pause.samplePool_start rfl rfl rfl rfl) hr hsuf hminted hmem⟩
    · cases hmint
  · cases hlast

/-! ## What each task reaps -/

/-- The call makes nothing, and unmakes nothing but a managed VM. -/
def Mild : Op → Prop
  | .lima (.start _) | .hub (.generateJitConfig ..) | .hub (.deleteRunner ..) => False
  | .lima (.stop vm) | .lima (.delete vm) => isManagedVmName vm = true
  | _ => True

/-- The runner was listed for the repository, with a managed name. -/
def Offered (owner repo : String) (id : ℕ) (ρ : Interleave.History Resp) : Prop :=
  ∃ pre runners r, ⟨.hub (.listRunners owner repo pre), .ok runners⟩ ∈ ρ ∧ r ∈ runners ∧
    r.id = id ∧ isManagedVmName r.name = true

/-- What the loops make sure of at each call. -/
def Good (ρ : Interleave.History Resp) (e : Event Resp) : Prop :=
  Mild e.1 ∨ ∃ owner repo id, e.1 = .hub (.deleteRunner owner repo id) ∧ Offered owner repo id ρ

theorem Offered.lasting {owner repo : String} : Lasting (Offered owner repo id) := by
  rintro e τ ⟨pre, runners, r, hlist, hr⟩
  exact ⟨pre, runners, r, List.mem_cons_of_mem _ hlist, hr⟩

section Loops

variable {name : String} {o : Op}

theorem mild_of_answers (h : o.answers) : Mild o := by
  cases o with
  | fs o => trivial
  | sched | lima | hub => exact h.elim

/-- Files have nothing to do with VMs and runners. -/
theorem mild_of_files (h : o.files) : Mild o := by
  cases o with
  | fs | sched => trivial
  | lima | hub => exact h.elim

/-- The calls of the collector's passes and the reconciler's, of
functions. -/
def Call.mild : Call → Prop
  | .host o => Mild o
  | .stop vm | .delete vm => isManagedVmName vm = true
  | _ => True

theorem impl_mild {c : Call} (hc : Call.mild c) : (c.impl cfg fuel).Only Mild := by
  cases c with
  | host o => exact Prog.only_op hc
  | finalizeError | writeSyntheticClaim | expireStaleCur | pruneOldArchives | pruneSerialLogs
  | pruneStaleJitBlobs =>
    exact Prog.Only.mono (impl_files (by trivial)) fun _ => mild_of_files
  | stop vm =>
    refine .step hc fun r => ?_
    split <;> trivial
  | delete vm =>
    refine .step hc fun r => ?_
    split
    · trivial
    · refine Prog.Only.bind (Prog.Only.bind (.step trivial fun r => ?_) fun r => ?_) fun r => ?_
      · split
        · trivial
        · split <;> trivial
      · split <;> trivial
      · split <;> trivial
  | listInstances =>
    refine .step trivial fun r => ?_
    split
    · trivial
    · split <;> trivial

theorem mild_of_vmPass {c : Call} (hc : c.ofVmPass) : Call.mild c := by
  cases c with
  | host o =>
    cases o with
    | fs => trivial
    | sched o =>
      cases o with
      | log => trivial
      | _ => exact hc.elim
    | lima o =>
      cases o with
      | readTemplate | readYaml => trivial
      | _ => exact hc.elim
    | hub => exact hc.elim
  | stop | delete => exact hc
  | _ => trivial

/-- Calls that are mild leave what was offered offered. -/
theorem mild_triple {α : Type} {A : Interleave.History Resp → Prop} {p : Prog Resp α}
    (hp : p.Only Mild) (hA : Lasting A) : Triple Good A p fun _ => A :=
  Triple.only hp fun _ _ _ ho hτ => ⟨.inl ho, hA _ _ hτ⟩

theorem deleteRunners_triple {owner repo : String} {reaps : List Runner} :
    Triple Good (fun τ => ∀ r ∈ reaps, Offered owner repo r.id τ)
      ((deleteRunners owner repo reaps).lower (Call.impl cfg fuel)) fun _ _ => True := by
  induction reaps with
  | nil => exact Triple.ret fun _ _ => trivial
  | cons r rest ih =>
    have hkeep : Lasting fun τ => ∀ r' ∈ r :: rest, Offered owner repo r'.id τ :=
      fun e τ h r' hr' => Offered.lasting e τ (h r' hr')
    refine Triple.step (o := Op.sched (.log (.orphanRunner r.name)))
      (B := fun _ τ => ∀ r' ∈ r :: rest, Offered owner repo r'.id τ)
      (fun τ x hτ => ⟨.inl trivial, hkeep _ _ hτ⟩) fun _ => ?_
    refine Triple.step (o := Op.hub (.deleteRunner owner repo r.id))
      (B := fun _ τ => ∀ r' ∈ r :: rest, Offered owner repo r'.id τ)
      (fun τ x hτ => ⟨.inr ⟨owner, repo, r.id, rfl, hτ r List.mem_cons_self⟩, hkeep _ _ hτ⟩)
      fun _ => ih.pre fun τ hτ r' hr' => hτ r' (List.mem_cons_of_mem _ hr')

theorem runnerPass_triple (reaped repos : List String) :
    Triple Good (fun _ => True) ((runnerPass fuel reaped repos).lower (Call.impl cfg fuel))
      fun _ _ => True := by
  induction repos with
  | nil => exact Triple.ret fun _ _ => trivial
  | cons repoFull rest ih =>
    unfold runnerPass
    split
    · exact ih
    · rename_i owner repo _
      refine Triple.step (o := Op.hub (.listRunners owner repo vmNamePrefix))
        (B := fun r τ => ⟨.hub (.listRunners owner repo vmNamePrefix), r⟩ ∈ τ)
        (fun τ r _ => ⟨.inl trivial, List.mem_cons_self⟩) fun r => ?_
      rcases r with e | runners
      · exact ih.pre fun _ _ => trivial
      · show Triple Good _ ((planRunnerReapsFromCur fuel runners reaped >>= fun reaps =>
          deleteRunners owner repo reaps >>= fun _ => runnerPass fuel reaped rest).lower
            (Call.impl cfg fuel)) _
        have hread : ((liveVmMapFromCur fuel).lower (Call.impl cfg fuel)).Only Mild :=
          (liveVmMapFromCur_only fun _ hc => mild_of_vmPass hc.ofVmPass).lower _ fun _ => impl_mild
        refine Triple.lowerBind (Triple.lowerBind (mild_triple hread Lasting.mem) fun claims =>
          Triple.ret (Q := fun (reaps : List Runner) τ => ∀ r ∈ reaps, Offered owner repo r.id τ)
            fun τ hτ r hr => ?_) fun reaps => Triple.lowerBind deleteRunners_triple fun _ => ih
        cases claims with
        | error e => cases hr
        | ok out =>
          simp only [planRunnerReaps, liveLessReaped, List.mem_filter, Bool.and_eq_true] at hr
          exact ⟨_, runners, r, hτ, hr.1, rfl, hr.2.1.1⟩

theorem call_triple {c : Call} (hc : Call.mild c) :
    Triple Good (fun _ => True) (c.impl cfg fuel) fun _ _ => True :=
  mild_triple (impl_mild hc) Lasting.true

theorem gcTick_triple :
    Triple Good (fun _ => True) (gcTick cfg fuel) fun _ _ => True := by
  refine Triple.step (o := Op.sched .sleep) (B := fun _ _ => True)
    (fun τ r _ => ⟨.inl trivial, trivial⟩) fun _ => ?_
  have hsweep : Triple Good (fun _ => True) ((sweepInner cfg fuel).lower (Call.impl cfg fuel))
      fun _ _ => True := by
    refine Triple.lowerStep (call_triple trivial) fun r => ?_
    rcases r with e | ⟨⟨⟩⟩
    · exact Triple.ret fun _ _ => trivial
    · refine Triple.lowerStep (call_triple trivial) fun _ => ?_
      refine Triple.lowerStep (call_triple trivial) fun _ => ?_
      refine Triple.lowerStep (call_triple trivial) fun _ => ?_
      have hvms : ((vmPass fuel).lower (Call.impl cfg fuel)).Only Mild :=
        vmPass_calls.lower _ fun _ hc => impl_mild (mild_of_vmPass hc)
      exact Triple.lowerBind (mild_triple hvms Lasting.true) fun reaped =>
        Triple.lowerBind (runnerPass_triple reaped _) fun _ => Triple.ret fun _ _ => trivial
  exact hsweep.bind fun _ => Triple.ret fun _ _ => trivial

theorem mild_of_reconciles {c : Call} (h : c.reconciles) : Call.mild c := by
  unfold Call.reconciles at h
  split at h
  · trivial
  · trivial
  · unfold Call.mints at h
    split at h <;> trivial

theorem reconcileTick_mild : (reconcileTick cfg fuel).Only Mild := by
  refine .step trivial fun _ => .step trivial fun paused => ?_
  split
  · trivial
  · have hinner : (reconcileInner cfg fuel).Only Call.mild := by
      refine (liveVmMapFromCur_only fun _ hc => mild_of_vmPass hc.ofVmPass).bind fun claims => ?_
      rcases claims with e | claims
      · trivial
      · exact ((reconcileRepos_calls _).mono fun _ => mild_of_reconciles).bind fun _ => trivial
    exact (hinner.lower _ fun _ => impl_mild).bind fun _ => trivial

/-- The turn of the dispatcher at a file. -/
theorem dispatchOne_mild (name : String) : (dispatchOne cfg name).Only Mild := by
  refine ((Listing.prepare_answers cfg name).mono fun _ => mild_of_answers).bind fun prepared => ?_
  have hdispatch : (dispatchPrepared prepared).Only Mild := by
    cases prepared with
    | run cur event => exact .step trivial fun _ => trivial
    | drop cur reason =>
      exact ((finalizeDone_only cur).mono fun _ h => mild_of_files h.files).bind fun _ =>
        Prog.only_op trivial
    | reject cur reason =>
      exact ((finalizeError_only cur reason).mono fun _ h => mild_of_files h.files).bind fun _ =>
        Prog.only_op trivial
    | skip => exact Prog.only_op trivial
  exact hdispatch.bind fun _ => trivial

variable (cfg fuel) in
/-- What the loops make sure of; the workers are watched over by their
life. -/
def habits : Habits (machine cfg fuel) where
  good _ k ρ e := Ownership.job k = none → Good ρ e
  pre _ _ _ := True

theorem sound_habits : (habits cfg fuel).Sound where
  forks _ := trivial
  body t k := by
    have hpost : ∀ next τ, (habits cfg fuel).post t next τ := by
      intro next τ
      cases next <;> trivial
    have hmild : ∀ {p : Prog Resp (Option Task)}, p.Only Mild →
        Triple ((habits cfg fuel).good t k) ((habits cfg fuel).pre t k) p
          ((habits cfg fuel).post t) := fun hp =>
      (Triple.of_only hp (Prog.returns_true _) fun _ _ _ ho _ => .inl ho).post
        fun next τ _ => hpost next τ
    cases k with
    | dispatch =>
      have hrecv : (sched .recv).Only Mild := Prog.only_op trivial
      exact hmild (hrecv.bind fun _ => trivial)
    | permit name =>
      exact hmild ((acquirePermit_only trivial trivial trivial trivial).bind fun _ => trivial)
    | prepare name => exact hmild (dispatchOne_mild name)
    | reconcile => exact hmild reconcileTick_mild
    | gc =>
      intro τ hτ
      exact ((gcTick_triple τ trivial).weaken fun _ _ hgood _ => hgood).mono
        fun next τ _ => hpost next τ
    | work cur event =>
      exact (Triple.of_only (Prog.only_true _) (Prog.returns_true _) fun _ _ _ _ hnone => by
        cases hnone).post fun next τ _ => hpost next τ

end Loops

/-! ## Every step -/

/-- The runner is the daemon's own, by name and repository. -/
structure Ours (cfg : Config) (g : Hub.Registration) : Prop where
  name : isManagedVmName g.name = true
  repo : g.owner ++ "/" ++ g.repo ∈ cfg.allowedRepos

/-- What the daemon has no name for is as it was. -/
structure Spares (cfg : Config) (w w' : World) : Prop where
  vms : ∀ v, isManagedVmName v.name = false → (v ∈ w'.lima.vms ↔ v ∈ w.lima.vms)
  runners : ∀ g, ¬ Ours cfg g → (g ∈ w'.hub.runners ↔ g ∈ w.hub.runners)

/-- The call makes and unmakes what is the daemon's alone. -/
structure Keeps (cfg : Config) (w : World) (o : Op) : Prop where
  vm : ∀ vm, o = .lima (.start vm) ∨ o = .lima (.delete vm) → isManagedVmName vm = true
  mint : ∀ owner repo name labels, o = .hub (.generateJitConfig owner repo name labels) →
    ∀ id, Ours cfg ⟨id, name, owner, repo⟩
  delete : ∀ owner repo id, o = .hub (.deleteRunner owner repo id) →
    ∃ name, Ours cfg ⟨id, name, owner, repo⟩ ∧ w.hub.Names ⟨id, name, owner, repo⟩

theorem lima_of_step {C : Codec} {t : Tid} {o : Op} {q : Oracle o} {r : Resp o} {w w' : World}
    (h : step C t o q w = some (r, w')) (ho : ∀ o', o ≠ .lima o') : w'.lima = w.lima := by
  cases o with
  | lima o' => exact absurd rfl (ho o')
  | fs o' | sched o' | hub o' =>
    obtain ⟨⟨r', s⟩, hs, heq⟩ := Option.map_eq_some_iff.mp h
    cases heq
    rfl

/-- Such a call spares the rest. -/
theorem Keeps.spares {t : Tid} {o : Op} {q : Oracle o} {r : Resp o} {w w' : World}
    (h : Keeps cfg w o) (hs : step cfg.codec t o q w = some (r, w')) : Spares cfg w w' := by
  refine ⟨fun v hv => ?_, fun g hg => ?_⟩
  · by_cases hlima : ∃ o', o = .lima o'
    · obtain ⟨o', rfl⟩ := hlima
      obtain ⟨⟨r', s⟩, hlima, heq⟩ := Option.map_eq_some_iff.mp hs
      cases heq
      refine Lima.mem_step hlima ?_ ?_
      · rintro rfl
        exact absurd (h.vm _ (.inl rfl)) (by simp [hv])
      · rintro rfl
        exact absurd (h.vm _ (.inr rfl)) (by simp [hv])
    · rw [lima_of_step hs fun o' ho => hlima ⟨o', ho⟩]
  · by_cases hhub : ∃ o', o = .hub o'
    · obtain ⟨o', rfl⟩ := hhub
      obtain ⟨s, hhub, rfl⟩ := step_hub hs
      constructor
      · intro hmem
        rcases Hub.mem_of_step hhub hmem with hmem | ⟨labels, rfl, -⟩
        · exact hmem
        · exact absurd (h.mint _ _ _ _ rfl g.id) hg
      · intro hmem
        refine Hub.mem_step hhub hmem ?_
        rintro rfl
        obtain ⟨name, hours, hnames⟩ := h.delete _ _ _ rfl
        exact hg (hnames.only g hmem rfl ▸ hours)
    · rw [hub_of_step hs fun o' ho => hhub ⟨o', ho⟩]

/-- A worker's calls are about its own. -/
theorem keeps_of_work (h₀ : Daemon.Start cfg fuel c₀) (hr : (machine cfg fuel).Run Meets c₀ c)
    {u : Tid} {cur : String} {event : WorkflowJob} {o : Op} {r : Resp o} {w : World}
    {σ : Daemon.History} (hsuf : .did u (.work cur event) o r w :: σ <:+ c.trace) :
    Keeps cfg w o := by
  have hrepo := (Provenance.authorised_of_work h₀ hr hsuf).repo
  obtain ⟨s, s', hs⟩ := Provenance.life_line h₀ hr hsuf
  have hmanaged : isManagedVmName (vmNameForEvent event) = true := isManagedVmName_vmName _
  refine ⟨?_, ?_, ?_⟩
  · rintro vm (rfl | rfl)
    · cases hs with
      | boot _ hl | unbooted _ hl => exact hl.vm ▸ hmanaged
      | mind hl | save hl => exact hl.elim
    · cases hs with
      | delete hl => exact hl.vm ▸ hmanaged
      | mind hl | save hl => exact hl.elim
  · rintro owner repo name labels rfl id
    cases hs with
    | mint hl =>
      have hvm : name = vmNameForEvent event := hl.vm
      exact ⟨hvm ▸ hmanaged, Provenance.splitFullName_eq hl.repo ▸ hrepo⟩
    | unminted hname hsplit => exact ⟨hname ▸ hmanaged, Provenance.splitFullName_eq hsplit ▸ hrepo⟩
    | mind hl | save hl => exact hl.elim
  · rintro owner repo id rfl
    -- the runner deleted is the one the worker minted
    obtain ⟨l, hl, rfl, rfl, rfl, hordered⟩ :=
      (Life.inOrder_of_work h₀ hr hsuf).giveUp _ _ _ rfl
    refine ⟨l.vm, ⟨hl.vm ▸ hmanaged, Provenance.splitFullName_eq hl.repo ▸ hrepo⟩, ?_⟩
    obtain ⟨c₁, q, w', hr₁, rfl, rfl, -, -⟩ := step_since h₀ hr hsuf
    obtain ⟨e, hmem, hmint⟩ := hordered.tail.tail.tail.mem
    exact names_of_minted h₀ hr₁ hmint hmem

/-- A loop deletes what it was offered. -/
theorem keeps_of_loop (h₀ : Daemon.Start cfg fuel c₀) (hr : (machine cfg fuel).Run Meets c₀ c)
    {t : Tid} {k : Task} {o : Op} {r : Resp o} {w : World} {σ : Daemon.History}
    (hk : Ownership.job k = none) (hsuf : .did t k o r w :: σ <:+ c.trace) : Keeps cfg w o := by
  have hgood : Good (Entry.own t σ) ⟨o, r⟩ :=
    sound_habits.line (h₀.habits trivial trivial trivial) hr hsuf hk
  have habout := Provenance.about_of_line h₀ hr hsuf
  rcases hgood with hmild | ⟨owner, repo, id, ho, pre, runners, x, hlist, hx, rfl, hname⟩
  · refine ⟨?_, ?_, ?_⟩
    · rintro vm (rfl | rfl)
      · exact hmild.elim
      · exact hmild
    · rintro owner repo name labels rfl
      exact hmild.elim
    · rintro owner repo id rfl
      exact hmild.elim
  · obtain rfl : o = .hub (.deleteRunner owner repo x.id) := ho
    refine ⟨by simp, by simp, ?_⟩
    rintro owner' repo' id heq
    cases heq
    obtain ⟨c₁, q, w', hr₁, rfl, rfl, -, -⟩ := step_since h₀ hr hsuf
    exact ⟨x.name, ⟨hname, habout owner repo rfl⟩, names_of_listed h₀ hr₁ hlist hx⟩

theorem spares_of_step {x : Line} (h₀ : Daemon.Start cfg fuel c₀)
    (hr : (machine cfg fuel).Run Meets c₀ c) (hs : (machine cfg fuel).Step c (some x) c') :
    Spares cfg c.world c'.world := by
  have hr' : (machine cfg fuel).Run (fun _ _ => True) c₀ c' :=
    (hr.mono fun _ _ _ => trivial).step hs fun _ _ => trivial
  cases hs with
  | @call t k o f q r w hat hq hnew =>
    have hsuf : .did t k o r c.world :: c.trace <:+ c.trace.cons (.did t k o r c.world) :=
      List.suffix_refl _
    refine Keeps.spares ?_ hq
    cases hk : Ownership.job k with
    | none => exact keeps_of_loop h₀ hr' hk hsuf
    | some j =>
      cases k with
      | work cur event => exact keeps_of_work h₀ hr' hsuf
      | _ => cases hk
  | exit hat => exact ⟨fun _ _ => Iff.rfl, fun _ _ => Iff.rfl⟩
  | crash hat hw => cases hw

/-- The outside starts and deletes no VM. -/
theorem lima_env (e : Env) {w : World} : (e.step w).lima = w.lima := by
  cases e <;> rfl

/-- **What is not the daemon's own is left alone**: its VMs are those there
were when it started, and no step of a thread adds or removes one of its
runners. -/
theorem foreign_untouched (h₀ : Daemon.Start cfg fuel c₀) (hr : (machine cfg fuel).Run Meets c₀ c) :
    (∀ v, isManagedVmName v.name = false → (v ∈ c.world.lima.vms ↔ v ∈ c₀.world.lima.vms)) ∧
      ∀ x c', (machine cfg fuel).Step c (some x) c' → Spares cfg c.world c'.world := by
  refine ⟨fun v hv => ?_, fun x c' => spares_of_step h₀ hr⟩
  induction hr with
  | start => exact Iff.rfl
  | @step c c' e hr hs _ ih =>
    refine Iff.trans ?_ ih
    cases e with
    | some x => exact (spares_of_step h₀ hr hs).vms v hv
    | none =>
      cases hs with
      | again hat => exact Iff.rfl
      | env hw =>
        cases hw
        exact iff_of_eq (congrArg (v ∈ Lima.State.vms ·) (lima_env _))

/-- A host with a VM and a runner of somebody else's. -/
def foreignWorld : World :=
  { World.sample [] 0 with
    lima := ⟨[⟨0, "default", some "/vm", ""⟩], 1, ""⟩
    hub := Hub.State.empty.register "o" "r" "builder" }

theorem foreign_sample :
    ((machine sampleConfig 1).follow (fun _ _ => true) (Life.lifeSchedule "x\nd\n")
      (Pause.samplePool foreignWorld)).map (fun c =>
        (Life.lastEnded c, c.world.lima.vms.map (·.name), c.world.hub.runners.map (·.name))) =
      some (some ("42.job", true), ["default"], ["builder"]) := by
  decide +kernel

/-- A job is run beside them, on a VM and a runner that come and go. -/
theorem foreign_untouched_sample :
    ∃ c, (machine sampleConfig 1).Run (fun _ _ => True) (Pause.samplePool foreignWorld) c ∧
      Life.lastEnded c = some ("42.job", true) ∧
      c.world.lima.vms.map (·.name) = ["default"] ∧
      c.world.hub.runners.map (·.name) = ["builder"] ∧
      (∀ v, isManagedVmName v.name = false → (v ∈ c.world.lima.vms ↔ v ∈ foreignWorld.lima.vms)) ∧
        ∀ x c', (machine sampleConfig 1).Step c (some x) c' → Spares sampleConfig c.world c'.world := by
  obtain ⟨c, hc, hlast⟩ := Option.map_eq_some_iff.mp foreign_sample
  obtain ⟨hended, hleft⟩ := Prod.mk.inj hlast
  obtain ⟨hvms, hrunners⟩ := Prod.mk.inj hleft
  have hr : (machine sampleConfig 1).Run (fun _ _ => True) _ c :=
    (Machine.run_of_follow hc).mono fun _ _ _ => trivial
  exact ⟨c, hr, hended, hvms, hrunners,
    foreign_untouched (Pause.samplePool_start rfl rfl rfl rfl) hr⟩

end Foreign

end GhaConsumer

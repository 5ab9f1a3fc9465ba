import GhaConsumer.Budget.Model
import GhaConsumer.Spool.Calls
import GhaConsumer.Supervisor.Model

/-!
# Budget — the longest a worker may take

What each part of a worker may take at most, added up. The installation
id is known, so that a call to GitHub is four requests at most
(`worker_takes`).
-/

namespace GhaConsumer

namespace Budget

open Interleave Alone

variable {cfg : Config} {o : Op} {r : Resp o} {s s' : State}

/-! ## One call -/

/-- Before finalize is called a call other than that leaves it so. -/
theorem called_of_step (h : timedStep cfg o s r s') (ho : o ≠ .sched .lockArchive) :
    s'.called = s.called := by
  obtain ⟨d, q, -, -, -, -, -, -, hcalled⟩ := h
  rw [hcalled]
  unfold calledAfter
  split
  · exact absurd rfl ho
  · rfl

/-- The call of finalize is when the clock stops. -/
theorem clock_of_lock {r : Resp (.sched .lockArchive)}
    (h : timedStep cfg (.sched .lockArchive) s r s') :
    s'.clock = s.clock ∧ s'.github = s.github := by
  obtain ⟨d, q, -, hd, -, -, -, -, hcalled⟩ := h
  refine ⟨?_, hd⟩
  unfold State.clock
  rw [hcalled]
  rfl

/-- The clock goes on by what a call lasts, or stands still. -/
theorem clock_of_step (h : timedStep cfg o s r s') (ho : o ≠ .sched .lockArchive) :
    ∃ d, Lasts cfg s d s'.github o r ∧ s'.clock ≤ s.clock + d ∧
      (s.called = none → s'.clock = s.world.fs.now + d) := by
  have hcalled := called_of_step h ho
  obtain ⟨d, q, -, hd, hs, -⟩ := h
  have hnow : s'.world.fs.now = s.world.fs.now + d := now_of_step hs
  refine ⟨d, hd, ?_, fun hnone => ?_⟩
  · unfold State.clock
    rw [hcalled, hnow]
    cases s.called with
    | none => exact le_refl _
    | some t => exact Nat.le_add_right _ _
  · unfold State.clock
    rw [hcalled, hnone, hnow]
    rfl

/-- The calls that take no time. -/
def still : Op → Prop
  | .fs _ | .sched _ => True
  | .lima (.shellStart _) | .lima .shellPoll | .lima .readTemplate | .lima (.readYaml _)
  | .lima (.readTail ..) => True
  | _ => False

theorem clock_of_still (h : timedStep cfg o s r s') (ho : still o) :
    s'.clock ≤ s.clock ∧ s'.github = s.github := by
  by_cases hl : o = .sched .lockArchive
  · subst hl
    exact ⟨(clock_of_lock h).1.le, (clock_of_lock h).2⟩
  · obtain ⟨d, hd, hle, -⟩ := clock_of_step h hl
    have hd : d = 0 ∧ s'.github = s.github := by
      cases o with
      | fs o => exact hd
      | sched o =>
        cases o with
        | lockArchive => exact absurd rfl hl
        | _ => exact hd
      | lima o =>
        cases o with
        | shellStart | shellPoll | readTemplate | readYaml | readTail =>
          exact ⟨Nat.le_zero.mp hd.1, hd.2⟩
        | _ => exact ho.elim
      | hub o => exact ho.elim
    exact ⟨by omega, hd.2⟩

/-- The `limactl` commands but for the shell. -/
def isCommand : Lima.Op → Prop
  | .start _ | .copyInto _ | .stop _ | .delete _ | .list => True
  | _ => False

theorem clock_of_command {c : Lima.Op} {r : Resp (.lima c)}
    (h : timedStep cfg (.lima c) s r s') (hc : isCommand c) :
    s'.clock ≤ s.clock + commandTimeout c ∧ s'.github = s.github := by
  obtain ⟨d, hd, hle, -⟩ := clock_of_step h (by simp)
  have hd : d ≤ commandTimeout c ∧ s'.github = s.github := by
    cases c with
    | start | copyInto | stop | delete | list => exact hd
    | _ => exact hc.elim
  exact ⟨by omega, hd.2⟩

/-! ## Calls to GitHub -/

/-- How long a request may take. -/
def apiTimeout (cfg : Config) : ℕ := secs cfg.apiTimeoutSecs.toNat

variable {α : Type} {d : ℕ} {g : GitHub.World}

/-- Where the id is known a call takes four requests at most. -/
theorem Sends.known {r : Except String α} (h : Sends cfg r s d g) (hk : s.github.Known) :
    d ≤ 4 * apiTimeout cfg ∧ g.Known := by
  obtain ⟨line, appId, account, ctx, build, a, he, hnow, -⟩ := h
  have hk : ({ s.github with now := s.world.fs.now } : GitHub.World).Known := hk
  obtain ⟨hle, hg⟩ := GitHub.sendAuthed_known.ends hk he
  rw [hnow] at hle
  exact ⟨Int.ofNat_le.mp (le_of_add_le_add_left hle), hg⟩

/-! ## Rules -/

/-- The program takes at most `c`, and returns with `Q`. -/
abbrev Takes (cfg : Config) {β : Type} (A : State → Prop) (c : ℕ) (p : Prog Resp β)
    (Q : β → State → Prop) : Prop :=
  Within (timedStep cfg) State.clock A c p Q

/-- The worker has not called finalize, and knows the installation id. -/
structure Working (s : State) : Prop where
  called : s.called = none
  known : s.github.Known

section

variable {β γ : Type} {b c n : ℕ} {A : State → Prop} {p : Prog Resp β} {Q : β → State → Prop}
variable {R : γ → State → Prop}

/-- Local calls but for that of finalize. -/
def isLocal (o : Op) : Prop := still o ∧ o ≠ .sched .lockArchive

theorem Takes.ret {x : β} (h : ∀ s, A s → Q x s) : Takes cfg A c (.ret x) Q :=
  Within.ret (Nat.zero_le c) h

theorem Takes.bind {f : β → Prog Resp γ} (hp : Takes cfg A c p Q)
    (hf : ∀ x, Takes cfg (Q x) n (f x) R) (hb : c + n ≤ b) :
    Takes cfg A b (p >>= f) R :=
  (Within.bind hp (Nat.zero_le n) hf).mono hb (fun _ h => h) fun _ _ h => h

theorem Takes.mono {A' : State → Prop} (h : Takes cfg A c p Q) (hA : ∀ s, A' s → A s) :
    Takes cfg A' c p Q :=
  Within.mono h (le_refl c) hA fun _ _ h => h

/-- One call, and the rest. -/
theorem Takes.call {B : Resp o → State → Prop} {f : Resp o → Prog Resp γ}
    (ho : ∀ s r s', A s → timedStep cfg o s r s' → s'.clock ≤ s.clock + c ∧ B r s')
    (hf : ∀ r, Takes cfg (B r) n (f r) R) (hb : c + n ≤ b) :
    Takes cfg A b (Prog.op o >>= f) R :=
  (Within.call ho (Nat.zero_le c) (Nat.zero_le n) hf).mono hb (fun _ h => h) fun _ _ h => h

/-- Local work. -/
theorem Takes.local (hp : p.Only isLocal) : Takes cfg Working 0 p fun _ => Working := by
  refine Within.only hp fun o s r s₁ ho hw hs => ?_
  obtain ⟨hle, hg⟩ := clock_of_still hs ho.1
  exact ⟨hle, (called_of_step hs ho.2).trans hw.called, hg ▸ hw.known⟩

/-- A `limactl` command, and the rest. -/
theorem Takes.command {k : Lima.Op} {f : Resp (.lima k) → Prog Resp γ} (hk : isCommand k)
    (hf : ∀ r, Takes cfg Working n (f r) R) (hb : commandTimeout k + n ≤ b) :
    Takes cfg Working b (lima k >>= f) R := by
  refine Takes.call (B := fun _ => Working) (fun s r s' hw hs => ?_) hf hb
  obtain ⟨hle, hg⟩ := clock_of_command hs hk
  exact ⟨hle, (called_of_step hs (by simp)).trans hw.called, hg ▸ hw.known⟩

/-- A call to GitHub once the id is known, and the rest. -/
theorem Takes.sends {k : Hub.Op} {f : Resp (.hub k) → Prog Resp γ}
    (hk : ∀ s d g r, Lasts cfg s d g (.hub k) r → s.github.Known →
      d ≤ 4 * apiTimeout cfg ∧ g.Known)
    (hf : ∀ r, Takes cfg Working n (f r) R) (hb : 4 * apiTimeout cfg + n ≤ b) :
    Takes cfg Working b (hub k >>= f) R := by
  refine Takes.call (B := fun _ => Working) (fun s r s' hw hs => ?_) hf hb
  obtain ⟨d, hd, hle, -⟩ := clock_of_step hs (by simp)
  obtain ⟨hd, hg⟩ := hk s d s'.github r hd hw.known
  exact ⟨by omega, (called_of_step hs (by simp)).trans hw.called, hg⟩

end

/-! ## The parts of a worker -/

section

variable {vm owner repo : String} {id fuel : ℕ} {event : WorkflowJob}

theorem replacePrivateFile_local {what : String} {p : Path} {contents : Files.Bytes} :
    (replacePrivateFile what p contents).Only isLocal := by
  refine .step ⟨trivial, by simp⟩ fun r => ?_
  have hwrite : (writePrivateFile p contents).Only isLocal :=
    writePrivateFile_only ⟨trivial, by simp⟩ (fun _ => ⟨trivial, by simp⟩) fun _ => ⟨trivial, by simp⟩
  split
  · exact trivial
  · exact trivial
  · refine hwrite.bind fun r => ?_
    split <;> exact trivial

theorem startVm_takes : Takes cfg Working (secs startTimeout) (Lima.startVm vm)
    fun _ => Working := by
  refine Takes.command (k := .start vm) (n := 0) trivial (fun r => ?_) (by simp [commandTimeout])
  split
  · exact Takes.ret fun _ h => h
  · split <;> exact Takes.ret fun _ h => h

theorem copyJit_takes : Takes cfg Working (secs copyTimeout) (Lima.copyJit vm)
    fun _ => Working := by
  refine Takes.command (k := .copyInto vm) (n := 0) trivial (fun r => ?_) (by simp [commandTimeout])
  split
  · exact Takes.ret fun _ h => h
  · split <;> exact Takes.ret fun _ h => h

theorem stopVm_takes : Takes cfg Working (secs stopTimeout) (Lima.stopVm vm)
    fun _ => Working := by
  refine Takes.command (k := .stop vm) (n := 0) trivial (fun r => ?_) (by simp [commandTimeout])
  split <;> exact Takes.ret fun _ h => h

theorem listInstances_takes {C : Codec} : Takes cfg Working (secs listTimeout)
    (Lima.listInstances C) fun _ => Working := by
  refine Takes.command (k := .list) (n := 0) trivial (fun r => ?_) (by simp [commandTimeout])
  split
  · exact Takes.ret fun _ h => h
  · split <;> exact Takes.ret fun _ h => h

/-- A delete that does not succeed lists once more. -/
theorem deleteVm_takes {C : Codec} : Takes cfg Working (secs deleteTimeout + secs listTimeout)
    (Lima.deleteVm C vm) fun _ => Working := by
  have hexists : Takes cfg Working (secs listTimeout) (Lima.instanceExists C vm)
      fun _ => Working := by
    refine Takes.bind (n := 0) listInstances_takes (fun r => ?_) (by omega)
    split <;> exact Takes.ret fun _ h => h
  refine Takes.command (k := .delete vm) (n := secs listTimeout) trivial (fun r => ?_)
    (by simp only [commandTimeout, le_refl])
  split
  · exact Takes.ret fun _ h => h
  · refine Takes.bind (n := 0) hexists (fun r => ?_) (by omega)
    split <;> exact Takes.ret fun _ h => h

theorem tailOf_local {dir : String} (fnames : List String) :
    (Lima.tailOf dir fnames).Only isLocal := by
  induction fnames with
  | nil => exact trivial
  | cons fname fnames ih =>
    refine .step ⟨trivial, by simp⟩ fun r => ?_
    split
    · exact trivial
    · exact ih

/-- The console's tail costs a listing. -/
theorem captureOomEvidence_takes : Takes cfg Working (secs listTimeout)
    (captureOomEvidence cfg vm) fun _ => Working := by
  have htail : Takes cfg Working (secs listTimeout) (Lima.serialLogTail cfg.codec vm)
      fun _ => Working := by
    refine Takes.bind (n := 0) listInstances_takes (fun r => ?_) (by omega)
    split
    · exact Takes.ret fun _ h => h
    · split
      · exact Takes.local ((tailOf_local _).bind fun _ => trivial)
      · exact Takes.ret fun _ h => h
  refine Takes.bind (n := 0) htail (fun r => ?_) (by omega)
  split
  · split
    · exact Takes.local (replacePrivateFile_local.bind fun _ => trivial)
    · exact Takes.ret fun _ h => h
  · exact Takes.ret fun _ h => h

/-- What the teardown may take. -/
def teardownBudget (cfg : Config) : ℕ :=
  secs stopTimeout + (secs deleteTimeout + secs listTimeout + 4 * apiTimeout cfg)

theorem teardown_takes : Takes cfg Working (teardownBudget cfg)
    (teardown cfg vm owner repo id) fun _ => Working := by
  have hdelete : Takes cfg Working (4 * apiTimeout cfg)
      (hub (.deleteRunner owner repo id) >>= fun _ => pure ()) fun _ => Working :=
    Takes.sends (n := 0) (fun _ _ _ _ h => Sends.known h) (fun _ => Takes.ret fun _ h => h)
      (by omega)
  refine Takes.bind stopVm_takes (fun _ => ?_) (le_refl _)
  refine Takes.bind deleteVm_takes (fun _ => ?_) (le_refl _)
  refine Takes.bind (c := 0) ?_ (fun _ => hdelete) (by omega)
  exact Takes.local (.step ⟨trivial, by simp⟩ fun _ => trivial)

/-! ## The race -/

/-- The calls of the race: none starts another shell. -/
def inRace : Op → Prop
  | .lima .shellOrTick | .lima .shellPoll | .lima .shellWait | .hub (.runnerStatus ..)
  | .fs .now => True
  | _ => False

theorem watchDispatch_inRace {start deadline : ℕ} {pending : Bool} :
    (watchDispatch owner repo id start deadline fuel pending).Only inRace := by
  induction fuel generalizing pending with
  | zero => exact .step trivial fun _ => trivial
  | succ fuel ih =>
    refine .step trivial fun r => ?_
    split
    · exact trivial
    · have hobs : (observeRunner owner repo id).Only inRace := by
        refine .step trivial fun r => ?_
        split
        · split
          · exact trivial
          · split <;> exact trivial
        · exact trivial
        · exact trivial
      refine hobs.bind fun obs => .step trivial fun r => ?_
      split
      · exact trivial
      · split
        · exact .step trivial fun _ => trivial
        · refine .step trivial fun now => ?_
          split
          · exact trivial
          · exact ih
          · exact ih

/-- A call of the race ends by the shell's deadline. -/
theorem clock_of_race {T : ℕ} (h : timedStep cfg o s r s') (ho : inRace o)
    (hs : s.shellEnds = T) (hc : s.clock ≤ T) (hw : Working s) :
    s'.clock ≤ T ∧ s'.shellEnds = T ∧ Working s' := by
  have hl : o ≠ .sched .lockArchive := by
    rintro rfl
    exact ho
  obtain ⟨d, hd, -, hnow⟩ := clock_of_step h hl
  have hnow := hnow hw.called
  have hcs : s.clock = s.world.fs.now := by rw [State.clock, hw.called]; rfl
  have hends : s'.shellEnds = s.shellEnds := by
    obtain ⟨d, q, -, -, -, -, hends, -⟩ := h
    rw [hends]
    cases o with
    | lima o => cases o <;> first | rfl | exact ho.elim
    | _ => rfl
  have hd : s.world.fs.now + d ≤ T ∧ s'.github = s.github := by
    cases o with
    | fs o =>
      obtain ⟨rfl, hg⟩ := hd
      exact ⟨by omega, hg⟩
    | sched o => exact ho.elim
    | lima o =>
      cases o with
      | shellOrTick | shellWait => exact ⟨hs ▸ hd.1, hd.2⟩
      | shellPoll =>
        have hd0 : d = 0 := Nat.le_zero.mp hd.1
        exact ⟨by omega, hd.2⟩
      | _ => exact ho.elim
    | hub o =>
      cases o with
      | runnerStatus => exact ⟨hs ▸ hd.1, hd.2⟩
      | _ => exact ho.elim
  exact ⟨by omega, hends.trans hs, (called_of_step h hl).trans hw.called, hd.2 ▸ hw.known⟩

/-- What `run_agent` does once the shell is started. -/
def raceFrom (cfg : Config) (fuel : ℕ) (owner repo : String) (id : ℕ) :
    Except String Unit → Prog Resp RaceEnd
  | .error e => pure (.exited (.error e))
  | .ok () =>
    if cfg.dispatchDeadlineSecs = 0 then do pure (.exited (← lima .shellWait))
    else do
      let start ← fs .now
      watchDispatch owner repo id start (cfg.dispatchDeadlineSecs.toNat * 1000000000) fuel false

/-- What follows the start of the shell is bounded by its deadline. -/
theorem race_inRace (cfg : Config) (fuel : ℕ) (owner repo : String) (id : ℕ)
    (r : Except String Unit) : (raceFrom cfg fuel owner repo id r).Only inRace := by
  unfold raceFrom
  split
  · exact trivial
  · split
    · exact .step trivial fun _ => trivial
    · exact .step trivial fun _ => watchDispatch_inRace

/-- The agent runs no longer than its deadline, whatever the watchdog
does meanwhile. -/
theorem runAgent_takes : Takes cfg Working (secs cfg.jobMaxRuntimeSecs.toNat)
    (runAgent cfg fuel vm owner repo id) fun _ => Working := by
  intro s hw
  refine ⟨Nat.le_add_right _ _, fun r s₁ hs => ?_⟩
  obtain ⟨hle, hg⟩ := clock_of_still hs trivial
  have hw₁ : Working s₁ :=
    ⟨(called_of_step hs (by simp)).trans hw.called, hg ▸ hw.known⟩
  have hclock : s₁.clock = s₁.world.fs.now := by rw [State.clock, hw₁.called]; rfl
  have hends : s₁.shellEnds = s₁.world.fs.now + secs cfg.jobMaxRuntimeSecs.toNat := by
    obtain ⟨d, q, -, -, -, -, hends, -⟩ := hs
    exact hends
  -- From here on the deadline stands, and bounds every call.
  have hk : Keeps (timedStep cfg) (fun s => s.clock ≤ s₁.shellEnds)
      (fun _ s => s.shellEnds = s₁.shellEnds ∧ Working s) _ s₁ :=
    Triple.only (I := fun s => s.clock ≤ s₁.shellEnds)
      (A := fun s => s.shellEnds = s₁.shellEnds ∧ Working s) (race_inRace cfg fuel owner repo id r)
      (fun o s r s' ho hc ha hs => clock_of_race hs ho ha.1 hc ha.2) s₁ (by omega) ⟨rfl, hw₁⟩
  have hle : s₁.shellEnds ≤ s.clock + secs cfg.jobMaxRuntimeSecs.toNat := by omega
  have hkeeps : Keeps (timedStep cfg)
      (fun s' => s'.clock ≤ s.clock + secs cfg.jobMaxRuntimeSecs.toNat) (fun _ => Working) _ s₁ :=
    hk.weaken (fun s' hc => hc.trans hle) fun _ _ _ h => h.2
  cases r with
  | error e => exact hkeeps
  | ok u => exact hkeeps

/-! ## The worker -/

/-- What the VM may take, and the run in it. -/
def runBudget (cfg : Config) : ℕ :=
  secs startTimeout + (secs copyTimeout + secs cfg.jobMaxRuntimeSecs.toNat)

theorem runInVm_takes {jit : JitConfigResp} : Takes cfg Working (runBudget cfg)
    (runInVm cfg fuel event vm jit owner repo) fun _ => Working := by
  refine Takes.bind (c := 0) (Takes.local replacePrivateFile_local) (fun r => ?_)
    (le_of_eq (Nat.zero_add _))
  split
  · exact Takes.ret fun _ h => h
  · refine Takes.bind startVm_takes (fun r => ?_) (le_refl _)
    split
    · exact Takes.ret fun _ h => h
    · refine Takes.bind copyJit_takes (fun r => ?_) (le_refl _)
      split
      · exact Takes.ret fun _ h => h
      · exact Takes.bind (n := 0) runAgent_takes (fun _ => Takes.ret fun _ h => h) (by omega)

/-- What a job may take, from its mint to its teardown. -/
def jobBudget (cfg : Config) : ℕ :=
  4 * apiTimeout cfg + (runBudget cfg + (secs listTimeout + teardownBudget cfg))

theorem runJob_takes : Takes cfg Working (jobBudget cfg) (runJob cfg fuel event)
    fun _ => Working := by
  unfold runJob jobBudget
  split
  · exact Takes.ret fun _ h => h
  · rename_i owner repo hsplit
    refine Takes.sends (k := .generateJitConfig owner repo (vmNameForEvent event)
      event.workflowJob.labels) (n := runBudget cfg + (secs listTimeout + teardownBudget cfg))
      (fun _ _ _ _ h => Sends.known h) (fun r => ?_) (le_refl _)
    split
    · exact Takes.ret fun _ h => h
    · refine Takes.bind (n := secs listTimeout + teardownBudget cfg) runInVm_takes
        (fun inner => ?_) (le_refl _)
      refine Takes.bind (n := teardownBudget cfg) captureOomEvidence_takes (fun _ => ?_) (le_refl _)
      exact Takes.bind (n := 0) teardown_takes (fun _ => Takes.ret fun _ h => h) (by omega)

/-- The completion check is a call more. -/
def checkBudget (cfg : Config) : ℕ := if cfg.jobCompletionCheck then 4 * apiTimeout cfg else 0

theorem completionCheck_takes : Takes cfg Working (checkBudget cfg)
    (completionCheck cfg event) fun _ => Working := by
  unfold completionCheck checkBudget
  split
  · unfold completionActionViaApi
    split
    · exact Takes.ret fun _ h => h
    · rename_i owner repo hsplit
      refine Takes.sends (k := .jobStatus owner repo event.workflowJob.id) (n := 0)
        (fun _ _ _ _ h => Sends.known h) (fun r => ?_) (by omega)
      split <;> exact Takes.ret fun _ h => h
  · exact Takes.ret fun _ h => h

/-- From the call of finalize on the clock stands still. -/
theorem finalizes_still {name : String} {o : Op} (h : o.finalizes name) : still o := by
  cases o with
  | fs o => trivial
  | sched o => trivial
  | lima o => exact h.elim
  | hub o => exact h.elim

theorem finalize_takes {name : String} {A : State → Prop} {p : Prog Resp (Except String Unit)}
    (hp : p.Only (Op.finalizes name)) : Takes cfg A 0 p fun _ _ => True := by
  refine Takes.mono (A := fun _ => True) ?_ fun _ _ => trivial
  refine Within.only (hp.mono fun _ => finalizes_still) fun _ _ _ _ ho _ hs => ?_
  exact ⟨(clock_of_still hs ho).1, trivial⟩

/-- The longest a worker may take. -/
def workerBudget (cfg : Config) : ℕ := jobBudget cfg + checkBudget cfg

/-- **No worker takes longer to its finalize.** -/
theorem worker_takes {cur : String} : Takes cfg Working (workerBudget cfg)
    (worker cfg fuel cur event) fun _ _ => True := by
  refine Takes.bind (n := checkBudget cfg) runJob_takes (fun outcome => ?_)
    (by simp only [workerBudget, le_refl])
  cases outcome with
  | error e =>
    refine Takes.bind (c := 0) (n := 0) (finalize_takes (finalizeError_only cur e)) (fun _ => ?_)
      (Nat.zero_le _)
    exact Takes.ret fun _ _ => trivial
  | ok =>
    refine Takes.bind (n := 0) completionCheck_takes (fun _ => ?_) (by omega)
    refine Takes.bind (c := 0) (n := 0) (finalize_takes (finalizeDone_only cur)) (fun _ => ?_)
      (Nat.zero_le _)
    exact Takes.ret fun _ _ => trivial

end

end Budget

end GhaConsumer

import GhaConsumer.Daemon.Shape

/-!
# The daemon — claims and the pause flag

The dispatch loop and the reconciler take a permit, read the pause flag
on it, and only then claim; a worker takes over the permit of the claim
it runs. Where a loop stands is a function of its own calls (`phase`),
so that what the other threads and the flag do meanwhile does not enter
(`claims_checked`). A flag that stays set lets each loop make the one
claim it was already cleared for (`claims_while_paused`).
-/

namespace GhaConsumer

namespace Pause

open Interleave Trace Daemon

/-- What a thread has called. -/
abbrev Own := Interleave.History Resp

/-! ## Permits -/

/-- The call got a permit. -/
def acquires : Event Resp → Bool
  | ⟨.sched .acquire, _⟩ => true
  | ⟨.sched .tryAcquire, got⟩ => got
  | _ => false

/-- The call gave the permit up, or to a worker. -/
def parts : Event Resp → Bool
  | ⟨.sched .release, _⟩ | ⟨.sched (.spawnJob ..), _⟩ => true
  | _ => false

/-- The call read the pause flag as false. -/
def clears : Event Resp → Bool
  | ⟨.sched .isPaused, paused⟩ => !paused
  | _ => false

/-- The entry of `cur/` the call has put there. -/
def claims : Event Resp → Option String
  | ⟨.fs o, r⟩ =>
    match Files.moved o r with
    | some (_, p) => if p.dir = .cur then some p.name else none
    | none => none
  | _ => none

/-- The call starts a worker. -/
def spawns : Event Resp → Bool
  | ⟨.sched (.spawnJob ..), _⟩ => true
  | _ => false

/-- Where a loop stands with its permit. -/
inductive Phase where
  | idle
  /-- It has a permit. -/
  | held
  /-- It has read the pause flag as false since it got the permit. -/
  | checked
  /-- It has claimed an entry since. -/
  | claimed (name : String)
  deriving DecidableEq, Repr

def after (e : Event Resp) (ph : Phase) : Phase :=
  if acquires e then .held
  else if parts e then .idle
  else match claims e with
    | some name => .claimed name
    | none => if clears e && ph == .held then .checked else ph

/-- Where a thread stands after its calls. -/
def phase : Own → Phase
  | [] => .idle
  | e :: τ => after e (phase τ)

/-- The call leaves a permit where it is, and claims nothing. -/
def Keeps (e : Event Resp) : Prop := acquires e = false ∧ parts e = false ∧ claims e = none

instance : DecidablePred Keeps := fun e =>
  inferInstanceAs (Decidable (acquires e = false ∧ parts e = false ∧ claims e = none))

theorem phase_of_acquires {e : Event Resp} {τ : Own} (h : acquires e = true) :
    phase (e :: τ) = .held := if_pos h

theorem phase_of_keeps {e : Event Resp} {τ : Own} (h : Keeps e) :
    phase (e :: τ) = if clears e && phase τ == .held then .checked else phase τ := by
  obtain ⟨hacq, hparts, hclaims⟩ := h
  simp only [phase, after, hacq, hparts, hclaims, Bool.false_eq_true, if_false]

theorem phase_of_claims {e : Event Resp} {τ : Own} {name : String} (h : claims e = some name) :
    phase (e :: τ) = .claimed name := by
  obtain ⟨hacq, hparts⟩ : acquires e = false ∧ parts e = false := by
    unfold claims at h
    split at h
    · exact ⟨rfl, rfl⟩
    · cases h
  simp only [phase, after, hacq, hparts, h, Bool.false_eq_true, if_false]

/-- What one call makes of where the thread stands. -/
inductive Moves (e : Event Resp) (ph : Phase) : Phase → Prop
  | acquires : acquires e = true → Moves e ph .held
  | parts : parts e = true → Moves e ph .idle
  | claims {name : String} : claims e = some name → Moves e ph (.claimed name)
  | clears : Keeps e → e = ⟨.sched .isPaused, false⟩ → ph = .held → Moves e ph .checked
  | keeps : Keeps e → (ph = .held → clears e = false) → Moves e ph ph

variable {e : Event Resp} {τ : Own} {name : String} {ph ph' : Phase}

theorem eq_of_clears (h : clears e = true) : e = ⟨.sched .isPaused, false⟩ := by
  unfold clears at h
  split at h
  · rename_i paused
    cases paused with
    | false => rfl
    | true => cases h
  · cases h

theorem moves_after (e : Event Resp) (ph : Phase) : Moves e ph (after e ph) := by
  unfold after
  split
  · rename_i hacq
    exact .acquires hacq
  · rename_i hacq
    split
    · rename_i hparts
      exact .parts hparts
    · rename_i hparts
      split
      · rename_i name hclaims
        exact .claims hclaims
      · rename_i hclaims
        have hkeeps : Keeps e := ⟨by simpa using hacq, by simpa using hparts, hclaims⟩
        split
        · rename_i hclear
          obtain ⟨hclear, hheld⟩ := Bool.and_eq_true_iff.mp hclear
          exact .clears hkeeps (eq_of_clears hclear) (by simpa using hheld)
        · rename_i hclear
          refine .keeps hkeeps fun hheld => ?_
          rw [hheld] at hclear
          simpa using hclear

theorem moves_phase (h : phase (e :: τ) = ph) : Moves e (phase τ) ph := h ▸ moves_after e (phase τ)

/-- A thread with a permit has called for it, and kept it since. -/
theorem exists_of_held (h : phase τ = .held) :
    ∃ mid acq before, τ = mid ++ acq :: before ∧ acquires acq = true ∧ ∀ e ∈ mid, Keeps e := by
  induction τ with
  | nil => cases h
  | cons e τ ih =>
    have hmove := moves_phase h
    generalize hph : phase τ = ph at hmove
    cases hmove with
    | acquires hacq => exact ⟨[], e, τ, rfl, hacq, fun e he => by cases he⟩
    | keeps hkeeps _ =>
      obtain ⟨mid, acq, before, rfl, hacq, hmid⟩ := ih hph
      exact ⟨e :: mid, acq, before, rfl, hacq, List.forall_mem_cons.mpr ⟨hkeeps, hmid⟩⟩

/-- The thread holds a permit, has read the pause flag as false since it
got it, and has claimed nothing on it. -/
def Checked (τ : Own) : Prop :=
  ∃ since mid acq before, τ = since ++ ⟨.sched .isPaused, false⟩ :: (mid ++ acq :: before) ∧
    acquires acq = true ∧ (∀ e ∈ since, Keeps e) ∧ ∀ e ∈ mid, Keeps e

theorem checked_of_phase (h : phase τ = .checked) : Checked τ := by
  induction τ with
  | nil => cases h
  | cons e τ ih =>
    have hmove := moves_phase h
    generalize hph : phase τ = ph at hmove
    cases hmove with
    | clears hkeeps he hheld =>
      obtain ⟨mid, acq, before, rfl, hacq, hmid⟩ := exists_of_held (hph.trans hheld)
      exact ⟨[], mid, acq, before, by rw [he]; rfl, hacq, fun e he => (by cases he), hmid⟩
    | keeps hkeeps _ =>
      obtain ⟨since, mid, acq, before, rfl, hacq, hsince, hmid⟩ := ih hph
      exact ⟨e :: since, mid, acq, before, rfl, hacq,
        List.forall_mem_cons.mpr ⟨hkeeps, hsince⟩, hmid⟩

/-- The thread has claimed the entry, and keeps the permit it claimed it
on. -/
def Claimed (name : String) (τ : Own) : Prop :=
  ∃ since e before, τ = since ++ e :: before ∧ claims e = some name ∧ ∀ e ∈ since, Keeps e

theorem claimed_of_phase (h : phase τ = .claimed name) : Claimed name τ := by
  induction τ with
  | nil => cases h
  | cons e τ ih =>
    have hmove := moves_phase h
    generalize hph : phase τ = ph at hmove
    cases hmove with
    | claims hclaims => exact ⟨[], e, τ, rfl, hclaims, fun e he => by cases he⟩
    | keeps hkeeps _ =>
      obtain ⟨since, e', before, rfl, hc, hsince⟩ := ih hph
      exact ⟨e :: since, e', before, rfl, hc, List.forall_mem_cons.mpr ⟨hkeeps, hsince⟩⟩

/-! ## What each task makes sure of -/

/-- The thread that runs the task, where the task may have a permit or
claim. -/
def loops (t : Tid) : Task → Prop
  | .dispatch | .permit _ | .prepare _ => t = dispatcher
  | .reconcile => t = reconciler
  | _ => False

/-- A claim is made where the flag has been checked, and a worker is
started for a claim; the rest of the daemon does neither. -/
structure Good (t : Tid) (k : Task) (τ : Own) (e : Event Resp) : Prop where
  loop : (acquires e = true ∨ parts e = true ∨ claims e ≠ none) → loops t k
  checked : ∀ name, claims e = some name → phase τ = .checked
  claimed : ∀ cur event u, e = ⟨.sched (.spawnJob cur event), u⟩ → phase τ = .claimed cur

/-- The calls that neither move a permit nor read the flag nor claim. -/
def Quiet : Op → Prop
  | .sched .acquire | .sched .tryAcquire | .sched .release | .sched (.spawnJob ..)
  | .sched .isPaused => False
  | .fs (.rename _ p) | .fs (.renameNoClobber _ p) => p.dir ≠ .cur
  | _ => True

variable {t : Tid} {k : Task} {o : Op}

theorem Quiet.keeps (h : Quiet o) (r : Resp o) : Keeps ⟨o, r⟩ ∧ clears ⟨o, r⟩ = false := by
  cases o with
  | fs o =>
    refine ⟨⟨rfl, rfl, ?_⟩, rfl⟩
    unfold claims
    cases o with
    | rename p p' | renameNoClobber p p' =>
      rcases r with e | _
      · rfl
      · exact if_neg h
    | _ => rfl
  | sched o =>
    cases o with
    | acquire | tryAcquire | release | spawnJob | isPaused => exact h.elim
    | _ => exact ⟨⟨rfl, rfl, rfl⟩, rfl⟩
  | lima o | hub o => exact ⟨⟨rfl, rfl, rfl⟩, rfl⟩

theorem good_of_keeps (h : Keeps e) : Good t k τ e := by
  obtain ⟨hacq, hparts, hclaims⟩ := h
  refine ⟨fun hor => ?_, fun name hc => ?_, fun cur event u he => ?_⟩
  · rcases hor with hor | hor | hor
    · rw [hacq] at hor
      cases hor
    · rw [hparts] at hor
      cases hor
    · exact absurd hclaims hor
  · rw [hclaims] at hc
    cases hc
  · rw [he] at hparts
    cases hparts

/-- Quiet calls leave a loop where it stands. -/
theorem phase_of_quiet (h : Quiet o) (r : Resp o) : phase (⟨o, r⟩ :: τ) = phase τ := by
  rw [phase_of_keeps (h.keeps r).1, (h.keeps r).2]
  rfl

/-- A loop that is past its acquire after a call got its permit by it, or
had it and kept it. -/
theorem phase_ne_idle {σ : Own} {e : Event Resp}
    (hg : Good t k σ e) (h : phase (e :: σ) ≠ .idle) :
    acquires e = true ∨ (parts e = false ∧ phase σ ≠ .idle) := by
  have hmove := moves_phase (rfl : phase (e :: σ) = _)
  generalize hph : phase (e :: σ) = ph at h hmove
  cases hmove with
  | acquires hacq => exact .inl hacq
  | parts hparts => exact absurd rfl h
  | claims hclaims =>
    rw [hg.checked _ hclaims]
    refine .inr ⟨?_, by simp⟩
    unfold claims at hclaims
    split at hclaims
    · rfl
    · cases hclaims
  | clears hkeeps _ hheld =>
    rw [hheld]
    exact .inr ⟨hkeeps.2.1, by simp⟩
  | keeps hkeeps _ => exact .inr ⟨hkeeps.2.1, h⟩

theorem quiet_triple {α : Type} {p : Prog Resp α} (hp : p.Only Quiet) :
    Triple (Good t k) (fun τ => phase τ = ph) p fun _ τ => phase τ = ph :=
  Triple.only hp fun _ r _ ho hτ =>
    ⟨good_of_keeps (ho.keeps r).1, (phase_of_quiet ho r).trans hτ⟩

/-- One quiet call, and the rest. -/
theorem quiet_step {α : Type} {f : Resp o → Prog Resp α} {Q : α → Own → Prop} (h : Quiet o)
    (hf : ∀ r, Triple (Good t k) (fun τ => phase τ = ph) (f r) Q) :
    Triple (Good t k) (fun τ => phase τ = ph) (Prog.op o >>= f) Q :=
  Triple.step (B := fun _ τ => phase τ = ph)
    (fun _ r hτ => ⟨good_of_keeps (h.keeps r).1, (phase_of_quiet h r).trans hτ⟩) hf

/-! ### Kinds of calls -/

theorem quiet_of_stamps (h : o.stamps) : Quiet o := by
  unfold Op.stamps at h
  split at h <;> trivial

theorem quiet_of_finalizes {name : String} (h : o.finalizes name) : Quiet o := by
  cases o with
  | fs o =>
    cases o with
    | rename p p' | renameNoClobber p p' =>
      obtain ⟨-, harch⟩ := h
      intro hcur
      rw [hcur] at harch
      cases harch
    | _ => trivial
  | sched o =>
    cases o with
    | lockArchive | unlockArchive => trivial
    | _ => exact h.elim
  | lima o | hub o => trivial

theorem quiet_of_tends {event : WorkflowJob} (h : o.tends event) : Quiet o := by
  cases o with
  | fs o =>
    cases o with
    | rename | renameNoClobber => exact h.elim
    | _ => trivial
  | sched o => exact h.elim
  | lima o | hub o => trivial

theorem quiet_of_sweeps (h : o.sweeps) : Quiet o := by
  cases o with
  | fs o =>
    cases o with
    | rename | renameNoClobber =>
      rcases h with h | ⟨name, h⟩
      · exact h.elim
      · exact quiet_of_finalizes h
    | _ => trivial
  | sched o =>
    cases o with
    | log | sleep => trivial
    | _ =>
      rcases h with h | ⟨name, h⟩
      · exact h.elim
      · exact quiet_of_finalizes h
  | lima o | hub o => trivial

/-! ### Steps -/

/-- Taking a permit. -/
theorem acquires_step (hk : loops t k) {e : Event Resp} (h : acquires e = true)
    (τ : Own) : Good t k τ e ∧ phase (e :: τ) = .held := by
  refine ⟨⟨fun _ => hk, fun name hc => ?_, fun cur event u he => ?_⟩, phase_of_acquires h⟩
  · unfold acquires at h
    split at h
    · cases hc
    · cases hc
    · cases h
  · subst he
    cases h

/-- Dropping a permit. -/
theorem release_step (hk : loops t k) (τ : Own) (r : Resp (.sched .release)) :
    Good t k τ ⟨.sched .release, r⟩ ∧ phase (⟨.sched .release, r⟩ :: τ) = .idle :=
  ⟨⟨fun _ => hk, fun _ hc => (by cases hc), fun _ _ _ he => (by cases he)⟩, rfl⟩

/-- Handing a permit to the worker of its claim. -/
theorem spawn_step (hk : loops t k) {cur : String} {event : WorkflowJob} (u : Tid)
    (hτ : phase τ = .claimed cur) :
    Good t k τ ⟨.sched (.spawnJob cur event), u⟩ ∧
      phase (⟨.sched (.spawnJob cur event), u⟩ :: τ) = .idle := by
  refine ⟨⟨fun _ => hk, fun _ hc => (by cases hc), fun cur' event' u' he => ?_⟩, rfl⟩
  cases he
  exact hτ

/-- What a read of the flag leaves of a permit just got. -/
def AfterCheck : Bool → Own → Prop
  | true, τ => phase τ = .held
  | false, τ => phase τ = .checked

theorem isPaused_held {r : Bool} (hτ : phase τ = .held) :
    AfterCheck r (⟨.sched .isPaused, r⟩ :: τ) := by
  have h := phase_of_keeps (e := ⟨.sched .isPaused, r⟩) (τ := τ) ⟨rfl, rfl, rfl⟩
  rw [hτ] at h
  cases r <;> exact h

theorem isPaused_idle {r : Bool} (hτ : phase τ = .idle) :
    phase (⟨.sched .isPaused, r⟩ :: τ) = .idle := by
  rw [phase_of_keeps ⟨rfl, rfl, rfl⟩, hτ]
  cases r <;> rfl

/-- What the rename of a claim leaves. -/
def AfterRename (name : String) : Except Files.Errno Unit → Own → Prop
  | .ok _, τ => phase τ = .claimed name
  | .error _, τ => phase τ = .checked

/-- Moving a file into `cur/`. -/
theorem claim_step (hk : loops t k) {p : Path} {name : String} (hτ : phase τ = .checked)
    (r : Except Files.Errno Unit) :
    Good t k τ ⟨.fs (.renameNoClobber p (curPath name)), r⟩ ∧
      AfterRename name r (⟨.fs (.renameNoClobber p (curPath name)), r⟩ :: τ) := by
  refine ⟨⟨fun _ => hk, fun _ _ => hτ, fun _ _ _ he => (by cases he)⟩, ?_⟩
  cases r with
  | error e =>
    have h : phase (⟨.fs (.renameNoClobber p (curPath name)), .error e⟩ :: τ) = _ :=
      phase_of_keeps ⟨rfl, rfl, rfl⟩
    rw [hτ] at h
    exact h
  | ok u => exact (rfl : phase (⟨.fs (.renameNoClobber p (curPath name)), .ok u⟩ :: τ) = _)

/-! ### The dispatcher -/

/-- A claim that is reported stands. -/
def ClaimStands (r : Except String (Option String)) (τ : Own) : Prop :=
  ∀ cur, r = .ok (some cur) → phase τ = .claimed cur

theorem isArchived_quiet (name : String) : (isArchived name).Only Quiet :=
  isArchived_only (fun _ => trivial) name

/-- A loop without a permit. -/
abbrev Idle (τ : Own) : Prop := phase τ = .idle

theorem release_then {α : Type} {f : Unit → Prog Resp α} {A : Own → Prop} {Q : α → Own → Prop}
    (hk : loops t k) (hf : ∀ r, Triple (Good t k) Idle (f r) Q) :
    Triple (Good t k) A (Prog.op (Op.sched .release) >>= f) Q :=
  Triple.step (B := fun _ => Idle) (fun τ r _ => release_step hk τ r) hf

theorem confirmClaim_triple (name : String) :
    Triple (Good t k) (fun τ => phase τ = .claimed name) (confirmClaim name) ClaimStands := by
  refine (quiet_triple (isArchived_quiet name)).bind fun archived => ?_
  split
  · exact quiet_step trivial fun _ => Triple.ret fun _ _ cur h => by cases h
  · refine Triple.ret fun τ hτ cur h => ?_
    cases h
    exact hτ

/-- A claim that is not reported. -/
theorem unclaimed_then {A : Own → Prop} {r : Except String (Option String)} (ho : Quiet o)
    (hr : ∀ cur, r ≠ .ok (some cur)) :
    Triple (Good t k) A (Prog.op o >>= fun _ => pure r) ClaimStands :=
  Triple.step (B := fun _ _ => True) (fun _ r _ => ⟨good_of_keeps (ho.keeps r).1, trivial⟩)
    fun _ => Triple.ret fun _ _ cur h => absurd h (hr cur)

theorem tryClaim_triple (hk : loops t k) (name : String) :
    Triple (Good t k) (fun τ => phase τ = .checked) (tryClaim name) ClaimStands := by
  refine (quiet_triple (isArchived_quiet name)).bind fun archived => ?_
  split
  · exact unclaimed_then trivial fun _ => by simp
  · refine (quiet_triple ((stampMtimeNow_only _).mono fun _ => quiet_of_stamps)).bind fun _ => ?_
    refine Triple.step (B := AfterRename name) (fun τ r hτ => claim_step hk hτ r) fun r => ?_
    split
    · exact confirmClaim_triple name
    · exact Triple.ret fun _ _ cur h => by cases h
    · exact unclaimed_then trivial fun _ => by simp
    · exact Triple.ret fun _ _ cur h => by cases h

/-- A job to be run has its claim. -/
def RunStands (r : Prepared) (τ : Own) : Prop :=
  ∀ cur event, r = .run cur event → phase τ = .claimed cur

theorem readSpoolFile_quiet (C : Codec) (cur : String) : (readSpoolFile C cur).Only Quiet := by
  refine .step trivial fun r => ?_
  split
  · trivial
  · refine .step trivial fun r => ?_
    split
    · trivial
    · split
      · trivial
      · split
        · trivial
        · refine .step trivial fun r => ?_
          split <;> trivial

variable {cfg : Config} {fuel : ℕ}

theorem prepare_triple (hk : loops t k) (name : String) :
    Triple (Good t k) (fun τ => phase τ = .checked) (prepare cfg name) RunStands := by
  unfold prepare
  split
  · exact Triple.ret fun _ _ cur event h => by cases h
  · rename_i id _
    refine (tryClaim_triple hk name).bind fun r => ?_
    split
    · rename_i cur
      unfold prepareClaim
      split
      · exact Triple.ret fun _ _ cur event h => by cases h
      · refine ((quiet_triple (readSpoolFile_quiet cfg.codec cur)).pre
          fun τ hτ => hτ cur rfl).bind fun r => ?_
        split
        · exact Triple.ret fun _ _ cur event h => by cases h
        · refine Triple.ret fun τ hτ cur' event h => ?_
          unfold Prepared.ofVerdict at h
          split at h <;> cases h
          exact hτ
    · exact Triple.ret fun _ _ cur event h => by cases h

theorem dispatchPrepared_triple (hk : loops t k) (prepared : Prepared) :
    Triple (Good t k) (RunStands prepared) (dispatchPrepared prepared)
      fun _ τ => phase τ = .idle := by
  have hrelease : Triple (Good t k) (fun _ => True) (sched .release) fun _ τ => phase τ = .idle :=
    Triple.op fun τ r _ => release_step hk τ r
  have hquiet : ∀ {α : Type} {p : Prog Resp α}, p.Only Quiet →
      Triple (Good t k) (fun _ => True) p fun _ _ => True := fun hp =>
    Triple.only hp fun _ r _ ho _ => ⟨good_of_keeps (ho.keeps r).1, trivial⟩
  cases prepared with
  | run cur event =>
    exact Triple.step (B := fun _ τ => phase τ = .idle)
      (fun τ u hτ => spawn_step hk u (hτ cur event rfl)) fun _ => Triple.ret fun _ hτ => hτ
  | drop cur reason =>
    exact ((hquiet ((finalizeDone_only cur).mono fun _ => quiet_of_finalizes)).pre
      fun _ _ => trivial).bind fun _ => hrelease
  | reject cur reason =>
    exact ((hquiet ((finalizeError_only cur reason).mono fun _ => quiet_of_finalizes)).pre
      fun _ _ => trivial).bind fun _ => hrelease
  | skip => exact hrelease.pre fun _ _ => trivial

/-- A permit got is checked, or given up. -/
theorem acquirePermit_triple (hk : loops t k) :
    Triple (Good t k) Idle acquirePermit fun got τ =>
      phase τ = if got then .checked else .idle := by
  refine quiet_step trivial fun _ => ?_
  refine Triple.step (B := fun _ τ => phase τ = .held)
    (fun τ _ _ => acquires_step hk (e := ⟨.sched .acquire, _⟩) rfl τ) fun _ => ?_
  refine Triple.step (B := AfterCheck)
    (fun τ r hτ => ⟨good_of_keeps ⟨rfl, rfl, rfl⟩, isPaused_held hτ⟩) fun paused => ?_
  cases paused with
  | true => exact release_then hk fun _ => Triple.ret fun _ hτ => hτ
  | false => exact Triple.ret fun _ hτ => hτ

/-! ### The reconciler -/

/-- What a try for a permit leaves. -/
def AfterTry : Bool → Own → Prop
  | true, τ => phase τ = .held
  | false, τ => phase τ = .idle

theorem writeSyntheticClaim_triple (hk : loops t k) (job : JobStatus) (fullName : String) :
    Triple (Good t k) (fun τ => phase τ = .checked) (writeSyntheticClaim cfg job fullName)
      ClaimStands := by
  refine quiet_step trivial fun r => ?_
  split
  · exact Triple.ret fun _ _ cur h => by cases h
  · refine quiet_step trivial fun nonce => ?_
    have hwrite : (writePrivateFile (curPath (tmpName job cfg.pid nonce))
        (syntheticBytes cfg.codec cfg.webhookSecret job fullName)).Only Quiet :=
      writePrivateFile_only trivial (fun _ => trivial) fun _ => trivial
    refine (quiet_triple hwrite).bind fun r => ?_
    split
    · exact Triple.ret fun _ _ cur h => by cases h
    · refine Triple.step (B := AfterRename (jobFileName job.id))
        (fun τ r hτ => claim_step hk hτ r) fun r => ?_
      split
      · have hstamp : (stampMtimeNow (curPath (jobFileName job.id))).Only Quiet :=
          (stampMtimeNow_only _).mono fun _ => quiet_of_stamps
        refine ((quiet_triple hstamp).pre fun τ hτ => hτ).bind fun _ =>
          Triple.ret fun τ hτ cur h => ?_
        cases h
        exact hτ
      · exact unclaimed_then trivial fun _ => by simp
      · exact unclaimed_then trivial fun _ => by simp

theorem mintClaimed_triple (hk : loops t k) (repoFull : String) (job : JobStatus) :
    Triple (Good t k) (fun τ => phase τ = .checked)
      ((mintClaimed repoFull job).lower (Call.impl cfg fuel)) fun _ => Idle := by
  refine Triple.lowerStep (writeSyntheticClaim_triple hk job repoFull) fun r => ?_
  split
  · rename_i cur
    exact Triple.step (B := fun _ => Idle) (fun τ u hτ => spawn_step hk u (hτ cur rfl))
      fun _ => Triple.ret fun _ hτ => hτ
  · exact release_then hk fun _ => Triple.ret fun _ hτ => hτ

theorem mintJob_triple (hk : loops t k) (repoFull : String) (job : JobStatus) :
    Triple (Good t k) Idle ((mintJob repoFull job).lower (Call.impl cfg fuel)) fun _ => Idle := by
  refine Triple.step (B := AfterTry) (fun τ got hτ => ?_) fun permit => ?_
  · cases got with
    | false => exact ⟨good_of_keeps ⟨rfl, rfl, rfl⟩, (phase_of_keeps ⟨rfl, rfl, rfl⟩).trans hτ⟩
    | true => exact acquires_step hk rfl τ
  · cases permit with
    | false => exact Triple.ret fun _ hτ => hτ
    | true =>
      refine Triple.step (B := AfterCheck)
        (fun τ r hτ => ⟨good_of_keeps ⟨rfl, rfl, rfl⟩, isPaused_held hτ⟩) fun paused => ?_
      cases paused with
      | true => exact release_then hk fun _ => Triple.ret fun _ hτ => hτ
      | false =>
        show Triple (Good t k) (AfterCheck false)
          ((mintClaimed repoFull job >>= fun _ => pure true).lower (Call.impl cfg fuel)) fun _ => Idle
        exact Triple.lowerBind (mintClaimed_triple hk repoFull job) fun _ =>
          Triple.ret fun _ hτ => hτ

/-- A read of the flag without a permit. -/
theorem isPaused_then {α : Type} {f : Bool → Prog Resp α} {Q : α → Own → Prop}
    (hf : ∀ r, Triple (Good t k) Idle (f r) Q) :
    Triple (Good t k) Idle (Prog.op (Op.sched .isPaused) >>= f) Q :=
  Triple.step (B := fun _ => Idle)
    (fun _ _ hτ => ⟨good_of_keeps ⟨rfl, rfl, rfl⟩, isPaused_idle hτ⟩) hf

theorem asks_idle (r : Resp o) (ho : o.asks) (hτ : Idle τ) :
    Good t k τ ⟨o, r⟩ ∧ Idle (⟨o, r⟩ :: τ) := by
  cases o with
  | sched o =>
    cases o with
    | isPaused => exact ⟨good_of_keeps ⟨rfl, rfl, rfl⟩, isPaused_idle hτ⟩
    | _ => exact ho.elim
  | hub o =>
    have hquiet : Quiet (.hub o) := trivial
    exact ⟨good_of_keeps (hquiet.keeps r).1, (phase_of_quiet hquiet r).trans hτ⟩
  | _ => exact ho.elim

theorem reconcileRepos_triple (hk : loops t k) (live repos : List String) :
    Triple (Good t k) Idle ((reconcileRepos cfg live repos).lower (Call.impl cfg fuel))
      fun _ => Idle :=
  reconcileRepos_keeps (fun _ r _ ho hτ => asks_idle r ho hτ) (mintJob_triple hk) live repos

theorem reconcileTick_triple (hk : loops t k) :
    Triple (Good t k) Idle (reconcileTick cfg fuel) fun next τ => next = some .reconcile ∧ Idle τ := by
  refine quiet_step trivial fun _ => isPaused_then fun paused => ?_
  split
  · exact Triple.ret fun _ hτ => ⟨rfl, hτ⟩
  · have hread : ((liveVmMapFromCur fuel).lower (Call.impl cfg fuel)).Only Quiet :=
      ((liveVmMapFromCur_only fun _ hc => hc.reaps.sweeps).lower _ fun _ => impl_only).mono
        fun _ => quiet_of_sweeps
    refine (Triple.lowerBind (quiet_triple hread) fun r => ?_ : Triple (Good t k) Idle
      ((reconcileInner cfg fuel).lower (Call.impl cfg fuel)) fun _ => Idle).bind
        fun _ => Triple.ret fun _ hτ => ⟨rfl, hτ⟩
    split
    · exact Triple.ret fun _ hτ => hτ
    · exact Triple.lowerBind (reconcileRepos_triple hk _ _) fun _ => Triple.ret fun _ hτ => hτ

/-! ### Every task -/

variable (cfg fuel) in
/-- The habits of the daemon's threads. -/
def habits : Habits (machine cfg fuel) where
  good := Good
  pre t k τ :=
    match k with
    | .dispatch | .permit _ => t = dispatcher ∧ Idle τ
    | .prepare _ => t = dispatcher ∧ phase τ = .checked
    | .reconcile => t = reconciler ∧ Idle τ
    | .gc | .work .. => True

theorem quiet_habits {p : Prog Resp (Option Task)} {A : Own → Prop} (hp : p.Only Quiet)
    (hr : p.Returns fun next => ∀ k', next = some k' → k' = .gc) :
    Triple (Good t k) A p ((habits cfg fuel).post t) := by
  refine (Triple.of_only hp hr fun o r τ ho => good_of_keeps (ho.keeps r).1).post
    fun next τ hnext => ?_
  cases next with
  | none => trivial
  | some k' =>
    obtain rfl := hnext k' rfl
    trivial

theorem sound_habits : (habits cfg fuel).Sound where
  forks := by
    intro o r u k h
    cases o with
    | sched o =>
      cases o with
      | spawnJob cur event =>
        cases h
        trivial
      | _ => cases h
    | _ => cases h
  body t k := by
    cases k with
    | dispatch =>
      refine Triple.pure_and fun ht => ?_
      exact quiet_step trivial fun name => Triple.ret fun τ hτ => ⟨ht, hτ⟩
    | permit name =>
      refine Triple.pure_and fun ht => ?_
      have hk : loops t (.permit name) := ht
      refine (acquirePermit_triple hk).bind fun got => Triple.ret fun τ hτ => ?_
      cases got with
      | true => exact ⟨ht, hτ⟩
      | false => exact ⟨ht, hτ⟩
    | prepare name =>
      refine Triple.pure_and fun ht => ?_
      have hk : loops t (.prepare name) := ht
      exact (prepare_triple hk name).bind fun prepared =>
        (dispatchPrepared_triple hk prepared).bind fun _ => Triple.ret fun τ hτ => ⟨ht, hτ⟩
    | reconcile =>
      refine Triple.pure_and fun ht => ?_
      have hk : loops t .reconcile := ht
      refine (reconcileTick_triple hk).post fun next τ hτ => ?_
      obtain ⟨rfl, hτ⟩ := hτ
      exact ⟨ht, hτ⟩
    -- the collector and the workers never look at the flag: all their calls are quiet
    | gc =>
      have hsweep : ((sweepInner cfg fuel).lower (Call.impl cfg fuel)).Only Quiet :=
        (sweepInner_only.lower _ fun _ => impl_only).mono fun _ => quiet_of_sweeps
      refine quiet_habits (.step trivial fun _ => hsweep.bind fun _ => trivial)
        (.step fun _ => (Prog.returns_true _).bind fun _ _ k' hk' => ?_)
      cases hk'
      rfl
    | work cur event =>
      have hwork : (worker cfg fuel cur event).Only Quiet :=
        worker_only.mono fun o ho => ho.elim quiet_of_tends quiet_of_finalizes
      refine quiet_habits (hwork.bind fun _ => trivial)
        ((Prog.returns_true _).bind fun _ _ k' hk' => ?_)
      cases hk'

/-! ## A flag that stays set -/

/-- The claims a loop may still make, where it does not find the flag
clear again. -/
def claimsLeft : Phase → ℕ
  | .checked => 1
  | _ => 0

/-- The workers it may still start. -/
def spawnsLeft : Phase → ℕ
  | .checked | .claimed _ => 1
  | _ => 0

/-- The claims of thread `t` in a history. -/
def claimCount (t : Tid) (τ : Daemon.History) : ℕ :=
  (Entry.own t τ).countP fun e => (claims e).isSome

/-- The workers started by thread `t` in a history. -/
def spawnCount (t : Tid) (τ : Daemon.History) : ℕ := (Entry.own t τ).countP spawns

/-- One call spends what it claims and starts. -/
theorem left_step (hg : Good t k τ e) (hc : clears e = false) :
    (if (claims e).isSome then 1 else 0) + claimsLeft (phase (e :: τ)) ≤ claimsLeft (phase τ) ∧
      (if spawns e then 1 else 0) + spawnsLeft (phase (e :: τ)) ≤ spawnsLeft (phase τ) := by
  have hspawn : spawns e = true → ∃ cur, phase τ = .claimed cur := by
    intro h
    unfold spawns at h
    split at h
    · exact ⟨_, hg.claimed _ _ _ rfl⟩
    · cases h
  have hparts : spawns e = true → parts e = true ∧ claims e = none := by
    intro h
    unfold spawns at h
    split at h
    · exact ⟨rfl, rfl⟩
    · cases h
  have hmove := moves_after e (phase τ)
  generalize hph : after e (phase τ) = ph at hmove
  rw [show phase (e :: τ) = ph from hph]
  -- a claim is spent on the way out of `checked`, a start on the way out of `claimed`
  cases hmove with
  | acquires hacq =>
    have hno : claims e = none ∧ spawns e = false := by
      unfold acquires at hacq
      split at hacq
      · exact ⟨rfl, rfl⟩
      · exact ⟨rfl, rfl⟩
      · cases hacq
    rw [hno.1, hno.2]
    exact ⟨Nat.zero_le _, Nat.zero_le _⟩
  | parts h =>
    have hno : claims e = none := by
      unfold parts at h
      split at h
      · rfl
      · rfl
      · cases h
    rw [hno]
    refine ⟨Nat.zero_le _, ?_⟩
    by_cases hs : spawns e = true
    · obtain ⟨cur, hτ⟩ := hspawn hs
      rw [if_pos hs, hτ]
      exact le_refl _
    · rw [if_neg hs]
      exact Nat.zero_le _
  | @claims name h =>
    have hs : ¬ spawns e = true := by
      intro hs
      rw [(hparts hs).2] at h
      cases h
    rw [if_neg hs, h, hg.checked name h]
    exact ⟨le_refl _, le_refl _⟩
  | clears _ he _ =>
    rw [he] at hc
    cases hc
  | keeps hkeeps _ =>
    have hs : ¬ spawns e = true := by
      intro hs
      rw [hkeeps.2.1] at hparts
      cases (hparts hs).1
    rw [if_neg hs, hkeeps.2.2]
    exact ⟨le_of_eq (Nat.zero_add _), le_of_eq (Nat.zero_add _)⟩

/-- What a stretch of history without a clear flag spends. -/
theorem left_run {later earlier : Daemon.History}
    (hgood : ∀ k o r w τ, .did t k o r w :: τ <:+ later ++ earlier →
      Good t k (Entry.own t τ) ⟨o, r⟩)
    (hclear : ∀ e ∈ Entry.own t later, clears e = false) :
    claimCount t later + claimsLeft (phase (Entry.own t (later ++ earlier)))
        ≤ claimsLeft (phase (Entry.own t earlier)) ∧
      spawnCount t later + spawnsLeft (phase (Entry.own t (later ++ earlier)))
        ≤ spawnsLeft (phase (Entry.own t earlier)) := by
  induction later with
  | nil => exact ⟨le_of_eq (Nat.zero_add _), le_of_eq (Nat.zero_add _)⟩
  | cons x later ih =>
    have hsuf : later ++ earlier <:+ x :: later ++ earlier := List.suffix_cons _ _
    have hgood' : ∀ k o r w τ, .did t k o r w :: τ <:+ later ++ earlier →
        Good t k (Entry.own t τ) ⟨o, r⟩ := fun k o r w τ h => hgood k o r w τ (h.trans hsuf)
    cases x with
    | ended u k w => exact ih hgood' hclear
    | did u k o r w =>
      by_cases hu : u = t
      · subst hu
        rw [Entry.own_did] at hclear
        obtain ⟨hclaims, hspawns⟩ := ih hgood' fun e he => hclear e (List.mem_cons_of_mem _ he)
        obtain ⟨hc, hs⟩ := left_step (hgood k o r w (later ++ earlier) (List.suffix_refl _))
          (hclear _ List.mem_cons_self)
        have hclaimCount : claimCount u (.did u k o r w :: later) =
            claimCount u later + if (claims ⟨o, r⟩).isSome then 1 else 0 := by
          unfold claimCount
          rw [Entry.own_did, List.countP_cons]
        have hspawnCount : spawnCount u (.did u k o r w :: later) =
            spawnCount u later + if spawns ⟨o, r⟩ then 1 else 0 := by
          unfold spawnCount
          rw [Entry.own_did, List.countP_cons]
        rw [List.cons_append, Entry.own_did, hclaimCount, hspawnCount]
        exact ⟨by omega, by omega⟩
      · unfold claimCount spawnCount at ih ⊢
        rw [Entry.own_did_of_ne hu] at hclear
        rw [List.cons_append, Entry.own_did_of_ne hu, Entry.own_did_of_ne hu]
        exact ih hgood' hclear

/-- The loops are two. -/
theorem eq_of_loops (h : loops t k) : t = dispatcher ∨ t = reconciler := by
  cases k with
  | dispatch | permit | prepare => exact .inl h
  | reconcile => exact .inr h
  | gc | work => exact h.elim

variable {c₀ c : Pool}

/-- The daemon's threads start with the habits. -/
theorem start_habits (h₀ : Daemon.Start cfg fuel c₀) : (habits cfg fuel).Start c₀ :=
  h₀.habits ⟨rfl, rfl⟩ ⟨rfl, rfl⟩ trivial

/-- What is read of the flag is what it is. -/
theorem paused_of_did (h₀ : Daemon.Start cfg fuel c₀)
    {Meets : Daemon.State → Line → Prop} (hr : (machine cfg fuel).Run Meets c₀ c) {paused : Bool}
    {w : World} (hmem : .did t k (.sched .isPaused) paused w ∈ c.trace) :
    paused = w.sched.paused := by
  obtain ⟨q, w', hstep⟩ := hr.did h₀.trace hmem
  have hstep : step cfg.codec t (.sched .isPaused) q w = some (paused, w') := hstep
  obtain ⟨s, hs, -⟩ := step_sched hstep
  cases hs
  rfl

/-- Every line of a run is good. -/
theorem good_line (h₀ : Daemon.Start cfg fuel c₀) {Meets : Daemon.State → Line → Prop}
    (hr : (machine cfg fuel).Run Meets c₀ c) {r : Resp o} {w : World} {τ : Daemon.History}
    (hsuf : .did t k o r w :: τ <:+ c.trace) : Good t k (Entry.own t τ) ⟨o, r⟩ :=
  sound_habits.line (start_habits h₀) hr hsuf

variable {later earlier : Daemon.History}

/-- Who claims or starts a worker is one of the loops. -/
theorem loop_of_own (h₀ : Daemon.Start cfg fuel c₀)
    {Meets : Daemon.State → Line → Prop} (hr : (machine cfg fuel).Run Meets c₀ c)
    (htrace : c.trace = later ++ earlier) (he : e ∈ Entry.own t later)
    (hor : (claims e).isSome = true ∨ spawns e = true) : t = dispatcher ∨ t = reconciler := by
  obtain ⟨k, w, σ, ρ, hρ⟩ := Entry.exists_of_own he
  have hsuf : .did t k e.1 e.2 w :: (σ ++ earlier) <:+ c.trace := ⟨ρ, by rw [htrace, ← hρ]; simp⟩
  refine eq_of_loops ((good_line h₀ hr hsuf).loop ?_)
  rcases hor with hc | hs
  · exact .inr (.inr (Option.isSome_iff_ne_none.mp hc))
  · refine .inr (.inl ?_)
    unfold spawns at hs
    split at hs
    · rfl
    · cases hs

/-- A set flag is not read as clear. -/
theorem not_clears_of_paused (h₀ : Daemon.Start cfg fuel c₀)
    {Meets : Daemon.State → Line → Prop} (hr : (machine cfg fuel).Run Meets c₀ c)
    (htrace : c.trace = later ++ earlier) (hpaused : ∀ x ∈ later, x.before.sched.paused = true)
    (he : e ∈ Entry.own t later) : clears e = false := by
  by_contra hc
  rw [Bool.not_eq_false] at hc
  obtain rfl := eq_of_clears hc
  obtain ⟨k, w, σ, hσ⟩ := Entry.exists_of_own he
  have hmem := hσ.subset List.mem_cons_self
  have hset : w.sched.paused = true := hpaused _ hmem
  have hread := paused_of_did h₀ hr (htrace ▸ List.mem_append_left earlier hmem)
  rw [hset] at hread
  cases hread

/-- While the flag is set a loop makes one claim and starts one worker at
most, and only where it stood past its check. -/
theorem counts_while_paused (h₀ : Daemon.Start cfg fuel c₀)
    {Meets : Daemon.State → Line → Prop} (hr : (machine cfg fuel).Run Meets c₀ c)
    (htrace : c.trace = later ++ earlier) (hpaused : ∀ x ∈ later, x.before.sched.paused = true)
    (t : Tid) :
    claimCount t later ≤ claimsLeft (phase (Entry.own t earlier)) ∧
      spawnCount t later ≤ spawnsLeft (phase (Entry.own t earlier)) := by
  obtain ⟨hclaims, hspawns⟩ := @left_run t later earlier
    (fun k o r w τ h => good_line h₀ hr (htrace ▸ h))
    fun e he => not_clears_of_paused h₀ hr htrace hpaused he
  exact ⟨le_trans (Nat.le_add_right _ _) hclaims, le_trans (Nat.le_add_right _ _) hspawns⟩

theorem claimsLeft_le_one (ph : Phase) : claimsLeft ph ≤ 1 := by
  unfold claimsLeft
  split <;> omega

theorem spawnsLeft_le_one (ph : Phase) : spawnsLeft ph ≤ 1 := by
  unfold spawnsLeft
  split <;> omega

theorem checked_of_claimsLeft (h : 0 < claimsLeft (phase τ)) : Checked τ := by
  cases hph : phase τ with
  | checked => exact checked_of_phase hph
  | idle | held | claimed =>
    rw [hph] at h
    cases h

theorem stands_of_spawnsLeft (h : 0 < spawnsLeft (phase τ)) :
    Checked τ ∨ ∃ name, Claimed name τ := by
  cases hph : phase τ with
  | checked => exact .inl (checked_of_phase hph)
  | claimed name => exact .inr ⟨name, claimed_of_phase hph⟩
  | idle | held =>
    rw [hph] at h
    cases h

/-- **Claims and the pause flag.** In every run of the daemon a claim is
made by one of the two loops on a permit on which it has read the pause
flag as false, and a worker is started for such a claim. So while the
flag is set, each loop makes one claim and starts one worker at most, and
only where it had passed its check, or had claimed, before. -/
theorem claims_checked (h₀ : Daemon.Start cfg fuel c₀)
    (hr : (machine cfg fuel).Run (fun _ _ => True) c₀ c) :
    (∀ t k o r w τ name, .did t k o r w :: τ <:+ c.trace → claims ⟨o, r⟩ = some name →
        (t = dispatcher ∨ t = reconciler) ∧ Checked (Entry.own t τ)) ∧
      (∀ t k cur event u w τ, .did t k (.sched (.spawnJob cur event)) u w :: τ <:+ c.trace →
        (t = dispatcher ∨ t = reconciler) ∧ Claimed cur (Entry.own t τ)) ∧
      ∀ later earlier, c.trace = later ++ earlier →
        (∀ x ∈ later, x.before.sched.paused = true) → ∀ t,
          claimCount t later ≤ 1 ∧ spawnCount t later ≤ 1 ∧
          (0 < claimCount t later →
            (t = dispatcher ∨ t = reconciler) ∧ Checked (Entry.own t earlier)) ∧
          (0 < spawnCount t later → (t = dispatcher ∨ t = reconciler) ∧
            (Checked (Entry.own t earlier) ∨ ∃ name, Claimed name (Entry.own t earlier))) := by
  refine ⟨fun t k o r w τ name hsuf hc => ?_, fun t k cur event u w τ hsuf => ?_,
    fun later earlier htrace hpaused t => ?_⟩
  · have hg := good_line h₀ hr hsuf
    exact ⟨eq_of_loops (hg.loop (.inr (.inr (by rw [hc]; simp)))),
      checked_of_phase (hg.checked name hc)⟩
  · have hg := good_line h₀ hr hsuf
    exact ⟨eq_of_loops (hg.loop (.inr (.inl rfl))), claimed_of_phase (hg.claimed cur event u rfl)⟩
  · obtain ⟨hclaims, hspawns⟩ := counts_while_paused h₀ hr htrace hpaused t
    refine ⟨hclaims.trans (claimsLeft_le_one _), hspawns.trans (spawnsLeft_le_one _),
      fun hpos => ?_, fun hpos => ?_⟩
    · obtain ⟨e, he, hc⟩ := List.countP_pos_iff.mp hpos
      exact ⟨loop_of_own h₀ hr htrace he (.inl hc),
        checked_of_claimsLeft (Nat.lt_of_lt_of_le hpos hclaims)⟩
    · obtain ⟨e, he, hs⟩ := List.countP_pos_iff.mp hpos
      exact ⟨loop_of_own h₀ hr htrace he (.inr hs),
        stands_of_spawnsLeft (Nat.lt_of_lt_of_le hpos hspawns)⟩

/-! ## One claim after the pause -/

/-- The daemon on the sample host, with the sample job's file in `new/`. -/
def samplePool (w : World) : Pool where
  world := w
  next := 3
  trace := []
  threads := Daemon.loops sampleConfig 1

theorem samplePool_start {w : World} (hcap : w.sched.capacity = sampleConfig.maxConcurrency)
    (hholders : w.sched.holders = []) (hlock : w.sched.archiveLock = none)
    (hscan : w.fs.scan = fun _ => none) : Daemon.Start sampleConfig 1 (samplePool w) :=
  ⟨rfl, rfl, rfl, hcap, hholders, hlock, hscan⟩

def sampleWorld : World := .sample [(⟨.new, "42.job"⟩, ⟨.regular, [], 0⟩)] 0

/-- The dispatcher gets a name and a permit and checks the flag; the flag
is set; the dispatcher claims. -/
def pauseSchedule : List (machine sampleConfig 1).Move :=
  .call dispatcher ({} : Answers).oracle :: .again dispatcher ::
    .replicate 3 (.call dispatcher ({} : Answers).oracle) ++ .again dispatcher ::
    .env (.setPaused true) :: .replicate 7 (.call dispatcher ({} : Answers).oracle)

theorem pause_sample :
    ((machine sampleConfig 1).follow (fun _ _ => true) pauseSchedule (samplePool sampleWorld)).map
      (fun c => ((c.trace.take 7).all fun x => x.before.sched.paused,
        claimCount dispatcher (c.trace.take 7))) = some (true, 1) := by
  decide +kernel

/-- The dispatcher, past its check, makes its one claim with the flag
set. -/
theorem claims_checked_sample :
    ∃ (c : Pool) (later earlier : Daemon.History),
      (machine sampleConfig 1).Run (fun _ _ => True) (samplePool sampleWorld) c ∧
      c.trace = later ++ earlier ∧ (∀ x ∈ later, x.before.sched.paused = true) ∧
      claimCount dispatcher later = 1 ∧ Checked (Entry.own dispatcher earlier) := by
  obtain ⟨c, hc, heq⟩ := Option.map_eq_some_iff.mp pause_sample
  obtain ⟨hpaused, hcount⟩ := Prod.mk.inj heq
  have hr : (machine sampleConfig 1).Run (fun _ _ => True) (samplePool sampleWorld) c :=
    (Machine.run_of_follow hc).mono fun _ _ _ => trivial
  have hpaused : ∀ x ∈ c.trace.take 7, x.before.sched.paused = true :=
    List.all_eq_true.mp hpaused
  have hall := claims_checked (samplePool_start rfl rfl rfl rfl) hr
  have hlast := (hall.2.2 _ _ (List.take_append_drop 7 c.trace).symm hpaused dispatcher).2.2.1
  exact ⟨c, c.trace.take 7, c.trace.drop 7, hr, (List.take_append_drop 7 c.trace).symm, hpaused,
    hcount, (hlast (by rw [hcount]; exact Nat.one_pos)).2⟩

end Pause

end GhaConsumer

import GhaConsumer.Daemon.Pause
import GhaConsumer.Gc.Coverage
import GhaConsumer.Intake.Verdict

/-!
# The daemon — slots

A slot is where the claim of an id stands in `cur/`. What each task does
to slots is a matter of its own calls: it fills a slot by a claim, starts
a worker for the claim it holds, and empties the slot it holds and no
other (`sound_habits`). The collector alone may empty any.
-/

namespace GhaConsumer

namespace Slots

open Interleave Trace Daemon
open Pause (Own acquires parts claims)

/-- Where the claim of an id stands. -/
abbrev slot (id : JobId) : Path := curPath (jobFileName id)

/-! ## Kinds of calls -/

/-- The task stages a synthetic claim there. -/
def Staged (cfg : Config) (k : Task) (p : Path) : Prop :=
  k = .reconcile ∧ ∃ job nonce, p = curPath (tmpName job cfg.pid nonce)

/-- What the daemon does to paths: files come into `cur/` from `new/` and
from where claims are staged, and go from there to the archive for good. -/
def Tidy (cfg : Config) (k : Task) : Op → Prop
  | .fs (.rename p p') => (p.dir = .cur ∨ p.dir.isArchive = true) ∧ p'.dir.isArchive = true
  | .fs (.renameNoClobber p p') =>
    ((p.dir = .cur ∨ p.dir.isArchive = true) ∧ p'.dir.isArchive = true) ∨
      ∃ name, p' = curPath name ∧ (p = ⟨.new, name⟩ ∨ Staged cfg k p)
  | .fs (.createNew p) => Staged cfg k p ∨ p.dir = .instances ∨ p.dir = .logs
  | .fs (.write p _) => p.dir = .error
  | _ => True

variable {cfg : Config} {fuel : ℕ} {o : Op} {t : Tid} {k : Task} {name : String}

/-- A finalize moves the claim it is of, and markers. -/
theorem tidy_of_finalizes (h : o.finalizes name) : Tidy cfg k o := by
  cases o with
  | fs o =>
    cases o with
    | rename p p' => exact ⟨h.1.imp_left fun hp => by rw [hp], h.2⟩
    | renameNoClobber p p' => exact .inl ⟨h.1.imp_left fun hp => by rw [hp], h.2⟩
    | write p data =>
      obtain rfl : p = ⟨.error, name ++ ".err"⟩ := h
      rfl
    | createNew p => exact h.elim
    | _ => trivial
  | _ => trivial

theorem tidy_of_sweeps (h : o.sweeps) : Tidy cfg k o := by
  cases o with
  | fs o =>
    cases o with
    | rename | renameNoClobber | createNew | write =>
      rcases h with h | ⟨name, h⟩
      · exact h.elim
      · exact tidy_of_finalizes h
    | _ => trivial
  | _ => trivial

/-! ## What a thread holds -/

/-- The entry of `cur/` the call has taken away. -/
def vacates : Event Resp → Option String
  | ⟨.fs (.removeFile p), .ok ()⟩ => if p.dir = .cur then some p.name else none
  | ⟨.fs o, r⟩ =>
    match Files.moved o r with
    | some (p, _) => if p.dir = .cur then some p.name else none
    | none => none
  | _ => none

/-- The entry a task is started with. -/
def entry : Task → Option String
  | .work cur _ => some cur
  | _ => none

/-- What a thread holds after its calls: the entry it has claimed, or was
started with, until it takes it away or parts with its permit. -/
def held (base : Option String) : Own → Option String
  | [] => base
  | e :: τ =>
    match claims e with
    | some name => some name
    | none =>
      if acquires e || parts e || (vacates e).isSome && vacates e == held base τ then none
      else held base τ

/-- What a task makes sure of at each of its calls: it takes no claim from
a slot but the one it holds, starts workers for the claim it holds, and
writes the file it has just made. -/
structure Good (cfg : Config) (k : Task) (τ : Own) (e : Event Resp) : Prop where
  tidy : Tidy cfg k e.1
  vacated : ∀ id, vacates e = some (jobFileName id) → k ≠ .gc →
    held (entry k) τ = some (jobFileName id)
  spawned : ∀ cur event u, e = ⟨.sched (.spawnJob cur event), u⟩ →
    held none τ = some cur ∧ cur = jobFileName event.workflowJob.id
  written : ∀ i data, e.1 = .fs (.writeAll i data) → ∃ p σ, τ = ⟨.fs (.createNew p), .ok i⟩ :: σ

/-- The calls that leave what is held as it is, and need nothing. -/
def Calm (cfg : Config) (k : Task) : Op → Prop
  | .sched .acquire | .sched .tryAcquire | .sched .release | .sched (.spawnJob ..)
  | .fs (.renameNoClobber ..) | .fs (.writeAll ..) => False
  | .fs (.rename p p') => p.dir.isArchive = true ∧ p'.dir.isArchive = true
  | .fs (.removeFile p) => p.dir ≠ .cur
  | o => Tidy cfg k o

variable {e : Event Resp} {τ : Own} {base h : Option String}

theorem ne_cur_of_isArchive {p : Path} (hp : p.dir.isArchive = true) : p.dir ≠ .cur := by
  rintro hcur
  rw [hcur] at hp
  cases hp

/-- A calm call claims nothing, parts with nothing and takes nothing. -/
theorem Calm.still (ho : Calm cfg k o) (r : Resp o) : Pause.Keeps ⟨o, r⟩ ∧ vacates ⟨o, r⟩ = none := by
  cases o with
  | fs o =>
    cases o with
    | rename p p' =>
      rcases r with e | ⟨⟨⟩⟩
      · exact ⟨⟨rfl, rfl, rfl⟩, rfl⟩
      · exact ⟨⟨rfl, rfl, if_neg (ne_cur_of_isArchive ho.2)⟩, if_neg (ne_cur_of_isArchive ho.1)⟩
    | removeFile p =>
      rcases r with e | ⟨⟨⟩⟩
      · exact ⟨⟨rfl, rfl, rfl⟩, rfl⟩
      · exact ⟨⟨rfl, rfl, rfl⟩, if_neg ho⟩
    | renameNoClobber | writeAll => exact ho.elim
    | _ => exact ⟨⟨rfl, rfl, rfl⟩, rfl⟩
  | sched o =>
    cases o with
    | acquire | tryAcquire | release | spawnJob => exact ho.elim
    | _ => exact ⟨⟨rfl, rfl, rfl⟩, rfl⟩
  | lima o | hub o => exact ⟨⟨rfl, rfl, rfl⟩, rfl⟩

theorem Calm.tidy (ho : Calm cfg k o) : Tidy cfg k o := by
  cases o with
  | fs o =>
    cases o with
    | rename p p' => exact ⟨.inr ho.1, ho.2⟩
    | renameNoClobber => exact ho.elim
    | createNew | write => exact ho
    | _ => trivial
  | _ => trivial

/-- A call that keeps what is held, and takes nothing, leaves it held. -/
theorem held_of_keeps (he : Pause.Keeps e) (hv : vacates e = none) :
    held base (e :: τ) = held base τ := by
  obtain ⟨hacq, hparts, hclaims⟩ := he
  simp [held, hacq, hparts, hclaims, hv]

theorem Calm.good (ho : Calm cfg k o) (r : Resp o) : Good cfg k τ ⟨o, r⟩ where
  tidy := ho.tidy
  vacated id hv := by
    rw [(ho.still r).2] at hv
    cases hv
  spawned cur event u he := by
    cases he
    exact ho.elim
  written i data he := by
    rw [show o = .fs (.writeAll i data) from he] at ho
    exact ho.elim

/-- Calm calls leave what is held. -/
theorem calm_triple {α : Type} {p : Prog Resp α} (hp : p.Only (Calm cfg k)) :
    Triple (Good cfg k) (fun τ => held base τ = h) p fun _ τ => held base τ = h :=
  Triple.only hp fun _ r _ ho hτ =>
    ⟨ho.good r, (held_of_keeps (ho.still r).1 (ho.still r).2).trans hτ⟩

/-- One calm call, and the rest. -/
theorem calm_step {α : Type} {f : Resp o → Prog Resp α} {Q : α → Own → Prop} (ho : Calm cfg k o)
    (hf : ∀ r, Triple (Good cfg k) (fun τ => held base τ = h) (f r) Q) :
    Triple (Good cfg k) (fun τ => held base τ = h) (Prog.op o >>= f) Q :=
  Triple.step (B := fun _ τ => held base τ = h)
    (fun _ r hτ => ⟨ho.good r, (held_of_keeps (ho.still r).1 (ho.still r).2).trans hτ⟩) hf

theorem calm_any {α : Type} {p : Prog Resp α} (hp : p.Only (Calm cfg k)) {A : Own → Prop} :
    Triple (Good cfg k) A p fun _ _ => True :=
  (Triple.only (B := fun _ => True) hp fun _ r _ ho _ => ⟨ho.good r, trivial⟩).pre
    fun _ _ => trivial

theorem calm_of_stamps (ho : o.stamps) : Calm cfg k o := by
  unfold Op.stamps at ho
  split at ho <;> trivial

/-! ## Emptying a slot -/

/-- A call that may take the entry held away, and no other. -/
theorem takes_good {o : Files.Op Dir String} {r : Files.Resp o} {cur : String}
    (htidy : Tidy cfg k (.fs o)) (hv : ∀ name, vacates ⟨.fs o, r⟩ = some name → name = cur)
    (hw : ∀ i data, o ≠ .writeAll i data) (hτ : held (entry k) τ = some cur) :
    Good cfg k τ ⟨.fs o, r⟩ where
  tidy := htidy
  vacated id hid _ := by rw [hτ, hv _ hid]
  spawned _ _ _ he := by cases he
  written i data he := absurd (Op.fs.inj he) (hw i data)

/-- What is left of the hold when the claim was to be moved. -/
def AfterTake (base : Option String) (cur : String) : Except Files.Errno Unit → Own → Prop
  | .ok _, _ => True
  | .error _, τ => held base τ = some cur

variable {cur : String} {dest : Path}

theorem rename_take (hdest : dest.dir.isArchive = true) (hτ : held (entry k) τ = some cur)
    (r : Except Files.Errno Unit) :
    Good cfg k τ ⟨.fs (.rename (curPath cur) dest), r⟩ ∧
      AfterTake (entry k) cur r (⟨.fs (.rename (curPath cur) dest), r⟩ :: τ) := by
  refine ⟨takes_good ⟨.inl rfl, hdest⟩ (fun name hv => ?_) (fun _ _ h => by cases h) hτ, ?_⟩
  · rcases r with e | ⟨⟨⟩⟩ <;> cases hv
    rfl
  · rcases r with e | ⟨⟨⟩⟩
    · exact (held_of_keeps ⟨rfl, rfl, rfl⟩ rfl).trans hτ
    · trivial

theorem renameNoClobber_take (hdest : dest.dir.isArchive = true)
    (hτ : held (entry k) τ = some cur) (r : Except Files.Errno Unit) :
    Good cfg k τ ⟨.fs (.renameNoClobber (curPath cur) dest), r⟩ ∧
      AfterTake (entry k) cur r (⟨.fs (.renameNoClobber (curPath cur) dest), r⟩ :: τ) := by
  refine ⟨takes_good (.inl ⟨.inl rfl, hdest⟩) (fun name hv => ?_) (fun _ _ h => by cases h) hτ, ?_⟩
  · rcases r with e | ⟨⟨⟩⟩ <;> cases hv
    rfl
  · rcases r with e | ⟨⟨⟩⟩
    · exact (held_of_keeps ⟨rfl, rfl, rfl⟩ rfl).trans hτ
    · trivial

theorem preserveExisting_calm (hdest : dest.dir.isArchive = true) :
    (preserveExisting dest).Only (Calm cfg k) := by
  refine .step trivial fun r => ?_
  split
  · refine .step trivial fun now => .step ⟨hdest, hdest⟩ fun r => ?_
    split <;> trivial
  · trivial

/-- An archive takes the claim held away, or leaves it. -/
theorem archive_triple (hdest : dest.dir.isArchive = true) :
    Triple (Good cfg k) (fun τ => held (entry k) τ = some cur) (archive cur dest)
      fun _ _ => True := by
  refine Triple.step (B := AfterTake (entry k) cur)
    (fun τ r hτ => renameNoClobber_take hdest hτ r) fun r => ?_
  split
  · exact Triple.ret fun _ _ => trivial
  · exact Triple.ret fun _ _ => trivial
  · refine ((calm_triple (preserveExisting_calm hdest)).and_returns
      (preserveExisting_returns dest)).bind fun bak => ?_
    refine Triple.pure_and fun hbak => ?_
    rcases bak with _ | bak
    · refine Triple.step (B := AfterTake (entry k) cur)
        (fun τ r hτ => rename_take hdest hτ r) fun r => ?_
      split <;> exact Triple.ret fun _ _ => trivial
    · refine Triple.step (B := AfterTake (entry k) cur)
        (fun τ r hτ => rename_take hdest hτ r) fun r => ?_
      split
      · exact Triple.ret fun _ _ => trivial
      · have hdir : bak.dir.isArchive = true := by rw [hbak bak rfl]; exact hdest
        have hback : Calm cfg k (.fs (.rename bak dest)) := ⟨hdir, hdest⟩
        exact Triple.step (B := fun _ _ => True) (fun _ r _ => ⟨hback.good r, trivial⟩)
          fun _ => Triple.ret fun _ _ => trivial
  · exact Triple.ret fun _ _ => trivial

theorem archiveAndStamp_triple (context : String) (hdest : dest.dir.isArchive = true) :
    Triple (Good cfg k) (fun τ => held (entry k) τ = some cur) (archiveAndStamp context cur dest)
      fun _ _ => True := by
  refine (archive_triple hdest).bind fun r => calm_any ?_
  exact ((stampInstalled_only dest r).mono fun _ => calm_of_stamps).bind fun _ =>
    .step trivial fun _ => trivial

theorem finalizeDone_triple :
    Triple (Good cfg k) (fun τ => held (entry k) τ = some cur) (finalizeDone cur)
      fun _ _ => True :=
  calm_step trivial fun _ => archiveAndStamp_triple _ rfl

theorem finalizeError_triple (reason : String) :
    Triple (Good cfg k) (fun τ => held (entry k) τ = some cur) (finalizeError cur reason)
      fun _ _ => True :=
  calm_step trivial fun _ => calm_step (show Dir.error = .error from rfl) fun _ =>
    archiveAndStamp_triple _ rfl

/-! ## Filling a slot -/

/-- What the rename of a claim leaves. -/
def AfterClaim (name : String) : Except Files.Errno Unit → Own → Prop
  | .ok _, τ => held none τ = some name
  | .error _, _ => True

/-- Moving a file into `cur/`, from `new/` or from where it is staged. -/
theorem claim_step {p : Path} (htidy : p = ⟨.new, name⟩ ∨ Staged cfg k p)
    (r : Except Files.Errno Unit) :
    Good cfg k τ ⟨.fs (.renameNoClobber p (curPath name)), r⟩ ∧
      AfterClaim name r (⟨.fs (.renameNoClobber p (curPath name)), r⟩ :: τ) := by
  refine ⟨⟨.inr ⟨name, rfl, htidy⟩, fun id hv _ => ?_, fun _ _ _ he => (by cases he),
    fun _ _ he => (by cases he)⟩, ?_⟩
  · -- a file that is claimed leaves no slot
    rcases r with e | ⟨⟨⟩⟩
    · cases hv
    · rcases htidy with rfl | ⟨-, job, nonce, rfl⟩
      · cases hv
      · exact absurd (Option.some.inj hv) (tmpName_ne_jobFileName job cfg.pid nonce id)
  · rcases r with e | ⟨⟨⟩⟩
    · trivial
    · exact (rfl : held none (⟨.fs (.renameNoClobber p (curPath name)), .ok ()⟩ :: τ) = some name)

/-- A claim that is reported is held. -/
def ClaimHeld (r : Except String (Option String)) (τ : Own) : Prop :=
  ∀ cur, r = .ok (some cur) → held none τ = some cur

/-- A claim that is not reported. -/
theorem unclaimed {A : Own → Prop} {r : Except String (Option String)}
    (hr : ∀ cur, r ≠ .ok (some cur)) : Triple (Good cfg k) A (.ret r) ClaimHeld :=
  Triple.ret fun _ _ cur h => absurd h (hr cur)

/-- A claim undone is the one just made. -/
theorem confirmClaim_triple (hk : entry k = none) :
    Triple (Good cfg k) (fun τ => held none τ = some name) (confirmClaim name) ClaimHeld := by
  have harch : (isArchived name).Only (Calm cfg k) := isArchived_only (fun _ => trivial) name
  refine (calm_triple harch).bind fun archived => ?_
  split
  · refine Triple.step (B := fun _ _ => True) (fun τ r hτ => ⟨?_, trivial⟩)
      fun _ => unclaimed fun _ => by simp
    have hheld : held (entry k) τ = some name := by rwa [hk]
    refine takes_good trivial (fun n hv => ?_) (fun _ _ h => by cases h) hheld
    rcases r with e | ⟨⟨⟩⟩ <;> cases hv
    rfl
  · refine Triple.ret fun τ hτ cur h => ?_
    cases h
    exact hτ

/-- A dispatcher that reports a claim holds it. -/
theorem tryClaim_triple (hk : entry k = none) (name : String) {A : Own → Prop} :
    Triple (Good cfg k) A (tryClaim name) ClaimHeld := by
  have harch : (isArchived name).Only (Calm cfg k) := isArchived_only (fun _ => trivial) name
  have hcalm : Calm cfg k (.fs (.removeFile ⟨.new, name⟩)) := show Dir.new ≠ Dir.cur by decide
  have hdrop : ∀ {A : Own → Prop}, Triple (Good cfg k) A (do
      let _ ← fs (.removeFile ⟨.new, name⟩)
      pure (.ok none)) ClaimHeld := fun {A} =>
    Triple.step (B := fun _ _ => True) (fun _ r _ => ⟨hcalm.good r, trivial⟩)
      fun _ => unclaimed fun _ => by simp
  refine (calm_any harch).bind fun archived => ?_
  split
  · exact hdrop
  · refine (calm_any ((stampMtimeNow_only _).mono fun _ => calm_of_stamps)).bind fun _ => ?_
    refine Triple.step (B := AfterClaim name) (fun τ r _ => claim_step (.inl rfl) r) fun r => ?_
    split
    · exact confirmClaim_triple hk
    · exact unclaimed fun _ => by simp
    · exact hdrop
    · exact unclaimed fun _ => by simp

/-! ## The dispatcher -/

/-- A job to be run has its claim, by its own name. -/
def RunHeld : Prepared → Own → Prop
  | .run cur event, τ => held none τ = some cur ∧ cur = jobFileName event.workflowJob.id
  | .drop cur _, τ | .reject cur _, τ => held none τ = some cur
  | .skip, _ => True

theorem calm_of_reads {o : Op} (h : o.reads) : Calm cfg k o := by
  unfold Op.reads at h
  split at h <;> trivial

/-- A claim is prepared for the event of its own name. -/
theorem prepareClaim_triple {id : JobId} :
    Triple (Good cfg k) (fun τ => held none τ = some name) (prepareClaim cfg name id name)
      RunHeld := by
  unfold prepareClaim
  split
  · exact Triple.ret fun τ hτ => hτ
  · rename_i hname
    refine (calm_triple ((readSpoolFileAt_only _ _).mono fun _ => calm_of_reads)).bind fun r => ?_
    split
    · exact Triple.ret fun τ hτ => hτ
    · rename_i env body
      refine Triple.ret fun τ hτ => ?_
      cases hv : classifyValidatedEntry cfg.codec id env body cfg.webhookSecret cfg.allowedRepos
        cfg.runnerLabel cfg.runnerLabels with
      | run event =>
        -- the id of the name is the id of the event
        obtain ⟨hval, -, -, hcross, -, -⟩ := classify_eq_run.mp hv
        have hjob : event.workflowJob.id = id :=
          (crossCheck_eq_none.mp hcross).2.2.1.trans (validateEnvelope_eq_none.mp hval).2.2.1
        exact ⟨hτ, by rw [hjob]; exact not_not.mp hname⟩
      | drop reason => exact hτ
      | reject reason => exact hτ

theorem tryClaim_returns (name : String) :
    (tryClaim name).Returns fun r => ∀ cur, r = .ok (some cur) → cur = name := by
  have hnone : ∀ {r : Except String (Option String)}, (∀ cur, r ≠ .ok (some cur)) →
      ∀ cur, r = .ok (some cur) → cur = name := fun hr cur h => absurd h (hr cur)
  refine (Prog.returns_true _).bind fun archived _ => ?_
  split
  · exact .step fun _ => hnone fun _ => by simp
  · refine (Prog.returns_true _).bind fun _ _ => .step fun r => ?_
    split
    · refine (Prog.returns_true _).bind fun archived _ => ?_
      split
      · exact .step fun _ => hnone fun _ => by simp
      · intro cur h
        cases h
        rfl
    · exact hnone fun _ => by simp
    · exact .step fun _ => hnone fun _ => by simp
    · exact hnone fun _ => by simp

theorem prepare_triple (hk : entry k = none) (name : String) :
    Triple (Good cfg k) (fun _ => True) (prepare cfg name) RunHeld := by
  unfold prepare
  split
  · exact Triple.ret fun _ _ => trivial
  · refine ((tryClaim_triple hk name).and_returns (tryClaim_returns name)).bind fun r => ?_
    refine Triple.pure_and fun hname => ?_
    split
    · rename_i cur
      obtain rfl := hname cur rfl
      exact prepareClaim_triple.pre fun τ hτ => hτ cur rfl
    · exact Triple.ret fun _ _ => trivial

/-- A call of the runtime that starts no worker is always good. -/
theorem sched_good {o : Sched.Op} (ho : ∀ cur event, o ≠ .spawnJob cur event)
    (r : Resp (.sched o)) : Good cfg k τ ⟨.sched o, r⟩ where
  tidy := trivial
  vacated _ hv := by cases hv
  spawned cur event u he := by
    cases he
    exact absurd rfl (ho cur event)
  written _ _ he := by cases he

/-- The claim held is handed to a worker, or moved away. -/
theorem dispatchPrepared_triple (hk : entry k = none) (prepared : Prepared) :
    Triple (Good cfg k) (RunHeld prepared) (dispatchPrepared prepared) fun _ _ => True := by
  have hrelease : ∀ {A : Own → Prop},
      Triple (Good cfg k) A (sched .release) fun _ _ => True := fun {A} =>
    Triple.op fun τ r _ => ⟨sched_good (by simp) r, trivial⟩
  cases prepared with
  | run cur event =>
    refine Triple.step (B := fun _ _ => True) (fun τ u hτ => ⟨?_, trivial⟩)
      fun _ => Triple.ret fun _ _ => trivial
    refine ⟨trivial, fun _ hv => (by cases hv), fun cur' event' u' he => ?_,
      fun _ _ he => by cases he⟩
    cases he
    exact hτ
  | drop cur reason =>
    exact (finalizeDone_triple.pre fun τ hτ => by rw [hk]; exact hτ).bind fun _ => hrelease
  | reject cur reason =>
    exact ((finalizeError_triple reason).pre fun τ hτ => by rw [hk]; exact hτ).bind
      fun _ => hrelease
  | skip => exact hrelease

/-! ## The reconciler -/

/-- The file written is the one just made. -/
theorem writePrivateFile_triple {p : Path} {contents : Files.Bytes}
    (hp : Tidy cfg k (.fs (.createNew p))) :
    Triple (Good cfg k) (fun τ => held base τ = h) (writePrivateFile p contents)
      fun _ τ => held base τ = h := by
  refine Triple.step (B := fun r τ => held base τ = h ∧
    ∀ i, r = .ok i → ∃ σ, τ = ⟨.fs (.createNew p), .ok i⟩ :: σ)
      (fun τ r hτ => ⟨Calm.good (o := .fs (.createNew p)) hp r, ?_, fun i hi => ⟨τ, by rw [hi]⟩⟩)
        fun r => ?_
  · exact (held_of_keeps ⟨rfl, rfl, rfl⟩ rfl).trans hτ
  · split
    · exact Triple.ret fun _ hτ => hτ.1
    · rename_i i
      refine Triple.step (B := fun _ τ => held base τ = h) (fun τ r hτ => ?_) fun r => ?_
      · obtain ⟨σ, hσ⟩ := hτ.2 i rfl
        refine ⟨⟨trivial, fun _ hv => (by cases hv), fun _ _ _ he => (by cases he),
          fun j data he => ?_⟩, (held_of_keeps ⟨rfl, rfl, rfl⟩ rfl).trans hτ.1⟩
        cases he
        exact ⟨p, σ, hσ⟩
      · split
        · exact Triple.ret fun _ hτ => hτ
        · exact calm_triple (Prog.only_op trivial)

/-- A reconciler that reports a claim holds it, having staged it itself. -/
theorem writeSyntheticClaim_triple (job : JobStatus) (fullName : String) :
    Triple (Good cfg .reconcile) (fun τ => held none τ = none)
      (writeSyntheticClaim cfg job fullName) ClaimHeld := by
  refine calm_step trivial fun r => ?_
  split
  · exact unclaimed fun _ => by simp
  · refine calm_step trivial fun nonce => ?_
    refine (writePrivateFile_triple (.inl ⟨rfl, job, nonce, rfl⟩)).bind fun r => ?_
    split
    · exact unclaimed fun _ => by simp
    · refine Triple.step (B := AfterClaim (jobFileName job.id))
        (fun τ r _ => claim_step (.inr ⟨rfl, job, nonce, rfl⟩) r) fun r => ?_
      -- where nothing was claimed the file staged is no claim's
      have hunstage : ∀ {A : Own → Prop} {r : Except String (Option String)},
          (∀ cur, r ≠ .ok (some cur)) → Triple (Good cfg .reconcile) A (do
            let _ ← fs (.removeFile (curPath (tmpName job cfg.pid nonce)))
            pure r) ClaimHeld := by
        intro A r hr
        refine Triple.step (B := fun _ _ => True) (fun τ r _ => ⟨?_, trivial⟩)
          fun _ => unclaimed hr
        refine ⟨trivial, fun id hv _ => ?_, fun _ _ _ he => (by cases he), fun _ _ he => by cases he⟩
        rcases r with e | ⟨⟨⟩⟩
        · cases hv
        · exact absurd (Option.some.inj hv) (tmpName_ne_jobFileName job cfg.pid nonce id)
      split
      · refine (calm_triple ((stampMtimeNow_only _).mono fun _ => calm_of_stamps)).bind
          fun _ => Triple.ret fun τ hτ cur h => ?_
        cases h
        exact hτ
      · exact hunstage fun _ => by simp
      · exact hunstage fun _ => by simp

theorem writeSyntheticClaim_returns (job : JobStatus) (fullName : String) :
    (writeSyntheticClaim cfg job fullName).Returns fun r =>
      ∀ cur, r = .ok (some cur) → cur = jobFileName job.id := by
  have hnone : ∀ {r : Except String (Option String)}, (∀ cur, r ≠ .ok (some cur)) →
      ∀ cur, r = .ok (some cur) → cur = jobFileName job.id := fun hr cur h => absurd h (hr cur)
  refine .step fun r => ?_
  split
  · exact hnone fun _ => by simp
  · refine .step fun nonce => (Prog.returns_true _).bind fun r _ => ?_
    split
    · exact hnone fun _ => by simp
    · refine .step fun r => ?_
      split
      · refine (Prog.returns_true _).bind fun _ _ cur h => ?_
        cases h
        rfl
      · exact .step fun _ => hnone fun _ => by simp
      · exact .step fun _ => hnone fun _ => by simp

/-- What the reconciler holds between its mints. -/
abbrev Free (τ : Own) : Prop := held none τ = none

theorem free_of_parts {e : Event Resp} (he : (acquires e || parts e) = true) (hc : claims e = none) :
    Free (e :: τ) := by
  simp only [Free, held, hc, he, Bool.true_or, if_true]

theorem release_free (r : Resp (.sched .release)) : Free (⟨.sched .release, r⟩ :: τ) :=
  free_of_parts rfl rfl

theorem mintClaimed_triple (repoFull : String) (job : JobStatus) :
    Triple (Good cfg .reconcile) Free ((mintClaimed repoFull job).lower (Call.impl cfg fuel))
      fun _ => Free := by
  refine Triple.lowerStep ((writeSyntheticClaim_triple job repoFull).and_returns
    (writeSyntheticClaim_returns job repoFull)) fun r => Triple.pure_and fun hname => ?_
  split
  · rename_i cur
    obtain rfl := hname cur rfl
    refine Triple.step (B := fun _ => Free) (fun τ u hτ => ⟨?_, free_of_parts rfl rfl⟩)
      fun _ => Triple.ret fun _ hτ => hτ
    refine ⟨trivial, fun _ hv => (by cases hv), fun cur' event' u' he => ?_,
      fun _ _ he => by cases he⟩
    cases he
    exact ⟨hτ _ rfl, rfl⟩
  · exact Triple.op fun τ r _ => ⟨sched_good (by simp) r, release_free r⟩

/-- A reconciler holds nothing between its mints. -/
theorem mintJob_triple (repoFull : String) (job : JobStatus) :
    Triple (Good cfg .reconcile) Free ((mintJob repoFull job).lower (Call.impl cfg fuel))
      fun _ => Free := by
  refine Triple.step (B := fun _ => Free) (fun τ got hτ => ⟨sched_good (by simp) got, ?_⟩)
    fun permit => ?_
  · cases got with
    | false => exact (held_of_keeps ⟨rfl, rfl, rfl⟩ rfl).trans hτ
    | true => exact free_of_parts rfl rfl
  · cases permit with
    | false => exact Triple.ret fun _ hτ => hτ
    | true =>
      refine calm_step trivial fun paused => ?_
      cases paused with
      | true =>
        exact Triple.step (B := fun _ => Free) (fun τ r _ => ⟨sched_good (by simp) r, release_free r⟩)
          fun _ => Triple.ret fun _ hτ => hτ
      | false =>
        show Triple (Good cfg .reconcile) Free
          ((mintClaimed repoFull job >>= fun _ => pure true).lower (Call.impl cfg fuel)) fun _ => Free
        exact Triple.lowerBind (mintClaimed_triple repoFull job) fun _ =>
          Triple.ret fun _ hτ => hτ

theorem asks_free (r : Resp o) (ho : o.asks) (hτ : Free τ) :
    Good cfg .reconcile τ ⟨o, r⟩ ∧ Free (⟨o, r⟩ :: τ) := by
  have hcalm : Calm cfg .reconcile o := by
    cases o with
    | sched o =>
      cases o with
      | isPaused => trivial
      | _ => exact ho.elim
    | hub o => trivial
    | _ => exact ho.elim
  exact ⟨hcalm.good r, (held_of_keeps (hcalm.still r).1 (hcalm.still r).2).trans hτ⟩

theorem calm_of_readsDir {c : Call} (hc : c.ReadsDir) :
    (c.impl cfg fuel).Only (Calm cfg k) := by
  cases c with
  | host o =>
    cases o with
    | fs o =>
      cases o with
      | openDir | nextEntry | fileType => exact Prog.only_op trivial
      | _ => exact hc.elim
    | _ => exact hc.elim
  | _ => exact hc.elim

theorem reconcileTick_triple :
    Triple (Good cfg .reconcile) Free (reconcileTick cfg fuel) fun next τ =>
      next = some .reconcile ∧ Free τ := by
  refine calm_step trivial fun _ => calm_step trivial fun paused => ?_
  split
  · exact Triple.ret fun _ hτ => ⟨rfl, hτ⟩
  · have hread : ((liveVmMapFromCur fuel).lower (Call.impl cfg fuel)).Only (Calm cfg .reconcile) :=
      (liveVmMapFromCur_only fun _ hc => hc).lower _ fun _ => calm_of_readsDir
    refine (Triple.lowerBind (calm_triple hread) fun r => ?_ : Triple (Good cfg .reconcile) Free
      ((reconcileInner cfg fuel).lower (Call.impl cfg fuel)) fun _ => Free).bind
        fun _ => Triple.ret fun _ hτ => ⟨rfl, hτ⟩
    split
    · exact Triple.ret fun _ hτ => hτ
    · exact Triple.lowerBind
        (reconcileRepos_keeps (fun _ r _ ho hτ => asks_free r ho hτ) mintJob_triple _ _)
          fun _ => Triple.ret fun _ hτ => hτ

/-! ## The worker and the collector -/

theorem calm_of_minds (ho : o.minds) : Calm cfg k o := by
  unfold Op.minds at ho
  split at ho <;> trivial

theorem replacePrivateFile_triple {what : String} {p : Path} {contents : Files.Bytes}
    (hp : p.dir = .instances ∨ p.dir = .logs) :
    Triple (Good cfg k) (fun τ => held base τ = h) (replacePrivateFile what p contents)
      fun _ τ => held base τ = h := by
  have hcur : p.dir ≠ .cur := by
    rcases hp with hp | hp <;> rw [hp] <;> decide
  refine calm_step hcur fun r => ?_
  have hwrite : Triple (Good cfg k) (fun τ => held base τ = h) (writePrivateFile p contents)
      fun _ τ => held base τ = h := writePrivateFile_triple (.inr hp)
  split
  · exact Triple.ret fun _ hτ => hτ
  · exact Triple.ret fun _ hτ => hτ
  · refine hwrite.bind fun r => ?_
    split <;> exact Triple.ret fun _ hτ => hτ

/-- A worker leaves its claim alone while it works. -/
theorem runInVm_triple {event : WorkflowJob} {vm owner repo : String} {jit : JitConfigResp} :
    Triple (Good cfg k) (fun τ => held base τ = h) (runInVm cfg fuel event vm jit owner repo)
      fun _ τ => held base τ = h := by
  have hlima : ∀ o, Calm cfg k (.lima o) := fun _ => trivial
  refine (replacePrivateFile_triple (.inl rfl)).bind fun r => ?_
  split
  · exact Triple.ret fun _ hτ => hτ
  · refine (calm_triple (Lima.startVm_only hlima vm)).bind fun r => ?_
    split
    · exact Triple.ret fun _ hτ => hτ
    · refine (calm_triple (Lima.copyJit_only hlima vm)).bind fun r => ?_
      split
      · exact Triple.ret fun _ hτ => hτ
      · exact (calm_triple (runAgent_only fun _ => calm_of_minds)).bind fun _ =>
          Triple.ret fun _ hτ => hτ

theorem captureOomEvidence_triple {vm : String} :
    Triple (Good cfg k) (fun τ => held base τ = h) (captureOomEvidence cfg vm)
      fun _ τ => held base τ = h := by
  refine (calm_triple (Lima.serialLogTail_only (fun _ => trivial) cfg.codec vm)).bind fun r => ?_
  split
  · split
    · exact (replacePrivateFile_triple (.inr rfl)).bind fun _ => Triple.ret fun _ hτ => hτ
    · exact Triple.ret fun _ hτ => hτ
  · exact Triple.ret fun _ hτ => hτ

theorem teardown_calm {vm owner repo : String} {id : ℕ} :
    (teardown cfg vm owner repo id).Only (Calm cfg k) := by
  have hrm : Calm cfg k (.fs (.removeFile (jitPath vm))) :=
    show Dir.instances ≠ Dir.cur by decide
  refine (Lima.stopVm_only (fun _ => trivial) vm).bind fun _ => ?_
  exact (Lima.deleteVm_only (fun _ => trivial) cfg.codec vm).bind fun _ =>
    .step hrm fun _ => .step trivial fun _ => trivial

/-- A worker moves its claim when it is done, and only then. -/
theorem worker_triple {event : WorkflowJob} :
    Triple (Good cfg k) (fun τ => held (entry k) τ = some cur) (worker cfg fuel cur event)
      fun _ _ => True := by
  have hrun : Triple (Good cfg k) (fun τ => held (entry k) τ = some cur) (runJob cfg fuel event)
      fun _ τ => held (entry k) τ = some cur := by
    unfold runJob
    split
    · exact Triple.ret fun _ hτ => hτ
    · refine calm_step trivial fun r => ?_
      split
      · exact Triple.ret fun _ hτ => hτ
      · exact runInVm_triple.bind fun _ => captureOomEvidence_triple.bind fun _ =>
          (calm_triple teardown_calm).bind fun _ => Triple.ret fun _ hτ => hτ
  refine hrun.bind fun r => ?_
  unfold finalizeJob
  split
  · exact (calm_triple (completionCheck_only fun _ _ _ => trivial)).bind fun _ =>
      finalizeDone_triple.bind fun _ => Triple.ret fun _ _ => trivial
  · exact (finalizeError_triple _).bind fun _ => Triple.ret fun _ _ => trivial

/-- The collector starts no worker and writes no file it has opened. -/
theorem good_of_sweeps (ho : o.sweeps) (r : Resp o) : Good cfg .gc τ ⟨o, r⟩ where
  tidy := tidy_of_sweeps ho
  vacated _ _ hne := absurd rfl hne
  spawned cur event u he := by
    cases he
    rcases ho with ho | ⟨name, ho⟩ <;> exact ho.elim
  written i data he := by
    rw [show o = .fs (.writeAll i data) from he] at ho
    rcases ho with ho | ⟨name, ho⟩ <;> exact ho.elim

/-! ## Every task -/

variable (cfg fuel) in
/-- What the daemon's threads make sure of, by task. -/
def habits : Habits (machine cfg fuel) where
  good _ k := Good cfg k
  pre _ k τ :=
    match k with
    | .reconcile => Free τ
    | .work cur _ => held (some cur) τ = some cur
    | _ => True

theorem sound_habits : (habits cfg fuel).Sound where
  forks := by
    intro o r u k h
    cases o with
    | sched o =>
      cases o with
      | spawnJob cur event =>
        cases h
        rfl
      | _ => cases h
    | _ => cases h
  body t k := by
    cases k with
    | dispatch =>
      exact Triple.step (B := fun _ _ => True) (fun τ r _ => ⟨sched_good (by simp) r, trivial⟩)
        fun name => Triple.ret fun τ _ => trivial
    | permit name =>
      have hwait : acquirePermit.Only fun o =>
          ∃ o', o = .sched o' ∧ ∀ cur event, o' ≠ .spawnJob cur event :=
        acquirePermit_only ⟨_, rfl, by simp⟩ ⟨_, rfl, by simp⟩ ⟨_, rfl, by simp⟩ ⟨_, rfl, by simp⟩
      refine (Triple.of_only hwait (Prog.returns_true _) fun o r τ ho => ?_).bind fun permit =>
        Triple.ret fun τ _ => ?_
      · obtain ⟨o', rfl, ho'⟩ := ho
        exact sched_good ho' r
      · cases permit <;> trivial
    | prepare name =>
      exact (prepare_triple rfl name).bind fun prepared =>
        (dispatchPrepared_triple rfl prepared).bind fun _ => Triple.ret fun _ _ => trivial
    | reconcile =>
      refine reconcileTick_triple.post fun next τ hτ => ?_
      obtain ⟨rfl, hτ⟩ := hτ
      exact hτ
    | gc =>
      have hsweep : ((sweepInner cfg fuel).lower (Call.impl cfg fuel)).Only Op.sweeps :=
        sweepInner_only.lower _ fun _ => impl_only
      have htick : (gcTick cfg fuel).Only Op.sweeps :=
        .step trivial fun _ => hsweep.bind fun _ => trivial
      have hnext : (gcTick cfg fuel).Returns fun next => next = some .gc :=
        .step fun _ => (Prog.returns_true _).bind fun _ _ => rfl
      refine (Triple.of_only htick hnext fun o r τ ho => good_of_sweeps ho r).post
        fun next τ hnext => ?_
      rw [hnext]
      trivial
    | work cur event =>
      exact (worker_triple.pre fun τ hτ => hτ).bind fun _ => Triple.ret fun _ _ => trivial

variable {c₀ c : Pool}

/-- The daemon's threads start with the habits. -/
theorem start_habits (h₀ : Daemon.Start cfg fuel c₀) : (habits cfg fuel).Start c₀ :=
  h₀.habits trivial rfl trivial

/-- Every line of a run is good. -/
theorem good_line (h₀ : Daemon.Start cfg fuel c₀) {Meets : Daemon.State → Line → Prop}
    (hr : (machine cfg fuel).Run Meets c₀ c) {r : Resp o} {w : World} {τ : Daemon.History}
    (hsuf : .did t k o r w :: τ <:+ c.trace) : Good cfg k (Entry.own t τ) ⟨o, r⟩ :=
  sound_habits.line (start_habits h₀) hr hsuf

end Slots

end GhaConsumer

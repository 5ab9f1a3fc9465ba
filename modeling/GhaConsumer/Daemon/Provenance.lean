import GhaConsumer.Daemon.Life
import GhaConsumer.Daemon.Passes
import GhaConsumer.Intake.Verdict

/-!
# The daemon — where jobs come from

No worker is started but on a warrant: a claim the dispatcher has read,
signed and within the policy, or a job GitHub has listed as queued for an
allowed repository (`Warrant`). So every job that runs, in every run, is
one of an allowed repository whose labels are accepted, under the file
name of its own id; and no call is made to GitHub about any other
repository (`warranted_run`).
-/

namespace GhaConsumer

namespace Provenance

open Interleave Trace Daemon
open Files (Bytes Ino)

/-! ## Repositories -/

/-- The repository a GitHub call is about. -/
def repoOf : Op → Option (String × String)
  | .hub (.generateJitConfig owner repo _ _) | .hub (.listRunners owner repo _)
  | .hub (.runnerStatus owner repo _) | .hub (.deleteRunner owner repo _)
  | .hub (.jobStatus owner repo _) | .hub (.listQueuedJobs owner repo) => some (owner, repo)
  | _ => none

/-- The call asks GitHub about these repositories only. -/
def About (repos : String → Prop) (o : Op) : Prop :=
  ∀ owner repo, repoOf o = some (owner, repo) → repos (owner ++ "/" ++ repo)

theorem about_of_repoOf {repos : String → Prop} {o : Op} {owner repo : String}
    (ho : repoOf o = some (owner, repo)) (h : repos (owner ++ "/" ++ repo)) : About repos o := by
  intro owner' repo' ho'
  rw [ho] at ho'
  cases ho'
  exact h

theorem splitFullName_eq {full owner repo : String} (h : splitFullName full = .ok (owner, repo)) :
    full = owner ++ "/" ++ repo := by
  unfold splitFullName at h
  split at h
  · cases h
  · rename_i hsplit
    split at h
    · cases h
    · split at h
      · cases h
      · cases h
        exact splitOnce_eq hsplit

/-! ## Warrants -/

/-- The job may run: its repository is allowed, its labels are accepted,
and its claim has its name. -/
structure Authorised (cfg : Config) (cur : String) (event : WorkflowJob) : Prop where
  repo : event.repository.fullName ∈ cfg.allowedRepos
  labels : classifyJobLabels cfg.codec event.workflowJob.labels cfg.runnerLabel cfg.runnerLabels =
    .accept
  queued : event.action = "queued"
  named : cur = jobFileName event.workflowJob.id

/-- The entry was put there, and not over another. -/
def Installed (p p' : Path) (ρ : Interleave.History Resp) : Prop :=
  ⟨.fs (.renameNoClobber p p'), .ok ()⟩ ∈ ρ

/-- Why a worker may be started, by what its starter has claimed and
read. -/
inductive Warrant (cfg : Config) (cur : String) (event : WorkflowJob)
    (ρ : Interleave.History Resp) : Prop
  /-- The claim was taken from the queue, and its own bytes carry the job,
  signed. -/
  | signed (id : JobId) (env : Envelope) (file : Ino) (bytes body : Bytes)
      (named : cur = jobFileName id) (claimed : Installed ⟨.new, cur⟩ (curPath cur) ρ)
      (opened : ⟨.fs (.openRead (curPath cur)), .ok file⟩ ∈ ρ)
      (read : ⟨.fs (.read file (maxFileBytes + 1)), .ok bytes⟩ ∈ ρ)
      (split : splitSpoolFile cfg.codec cur bytes = .ok (env, body))
      (run : classifyValidatedEntry cfg.codec id env body cfg.webhookSecret cfg.allowedRepos
        cfg.runnerLabel cfg.runnerLabels = .run event)
  /-- GitHub has listed the job as queued, and a claim staged for it was
  put in its slot. -/
  | listed (repoFull owner repo : String) (jobs : List JobStatus) (job : JobStatus) (nonce : ℕ)
      (allowed : repoFull ∈ cfg.allowedRepos) (split : splitOnce repoFull = some (owner, repo))
      (answered : ⟨.hub (.listQueuedJobs owner repo), .ok jobs⟩ ∈ ρ) (mem : job ∈ jobs)
      (labels : classifyJobLabels cfg.codec job.labels cfg.runnerLabel cfg.runnerLabels = .accept)
      (event_eq : event = buildEvent repoFull job) (named : cur = jobFileName job.id)
      (claimed : Installed (curPath (tmpName job cfg.pid nonce)) (curPath cur) ρ)

variable {cfg : Config} {fuel : ℕ} {cur : String} {event : WorkflowJob}
variable {ρ : Interleave.History Resp}

/-- **What a warrant is good for.** -/
theorem Warrant.authorised (h : Warrant cfg cur event ρ) : Authorised cfg cur event := by
  cases h with
  | signed id env file bytes body named _ _ _ _ run =>
    obtain ⟨hval, -, -, hcross, hqueued, hlabels⟩ := classify_eq_run.mp run
    obtain ⟨-, -, hid, hrepo⟩ := validateEnvelope_eq_none.mp hval
    obtain ⟨-, hname, hjob, -⟩ := crossCheck_eq_none.mp hcross
    exact ⟨hname ▸ hrepo, hlabels, hqueued, by rw [named, hjob, hid]⟩
  | listed repoFull owner repo jobs job _ allowed _ _ _ labels event_eq named =>
    subst event_eq
    exact ⟨allowed, labels, rfl, named⟩

/-! ## Each task -/

/-- The calls that neither ask GitHub nor start a worker. -/
def Plain : Op → Prop
  | .hub _ | .sched (.spawnJob ..) => False
  | _ => True

/-- The repository is one of those allowed. -/
def Allowed (cfg : Config) (full : String) : Prop := full ∈ cfg.allowedRepos

/-- What the loops make sure of at each call. -/
structure Good (cfg : Config) (ρ : Interleave.History Resp) (e : Event Resp) : Prop where
  about : About (Allowed cfg) e.1
  warrant : ∀ cur event, e.1 = .sched (.spawnJob cur event) → Warrant cfg cur event ρ

variable {o : Op} {r : Resp o}

theorem good_of_plain (h : Plain o) : Good cfg ρ ⟨o, r⟩ where
  about owner repo ho := by
    cases o with
    | hub => exact h.elim
    | fs | sched | lima => cases ho
  warrant cur event ho := by
    obtain rfl : o = _ := ho
    exact h.elim

/-- Files have nothing to do with either. -/
theorem plain_of_files (h : o.files) : Plain o := by
  unfold Op.files at h
  split at h
  · trivial
  · trivial
  · trivial
  · exact h.elim

/-- Calls that ask and start nothing, and leave what is known known. -/
theorem plain_triple {α : Type} {A : Interleave.History Resp → Prop} {p : Prog Resp α}
    (hp : p.Only Plain) (hA : Lasting A) : Triple (Good cfg) A p fun _ => A :=
  Triple.only hp fun _ _ _ ho hτ => ⟨good_of_plain ho, hA _ _ hτ⟩

/-- What a read claim has been read from. -/
def ReadFrom (C : Codec) (cur : String) (r : Except String (Envelope × Bytes))
    (ρ : Interleave.History Resp) : Prop :=
  ∀ env body, r = .ok (env, body) → ∃ file bytes,
    ⟨.fs (.openRead (curPath cur)), .ok file⟩ ∈ ρ ∧
      ⟨.fs (.read file (maxFileBytes + 1)), .ok bytes⟩ ∈ ρ ∧
        splitSpoolFile C cur bytes = .ok (env, body)

theorem readSpoolFile_triple (C : Codec) (cur : String) {A : Interleave.History Resp → Prop}
    (hA : Lasting A) :
    Triple (Good cfg) A (readSpoolFile C cur) fun r ρ => A ρ ∧ ReadFrom C cur r ρ := by
  have hfail : ∀ {B : Interleave.History Resp → Prop} {e : String}, (∀ ρ, B ρ → A ρ) →
      Triple (Good cfg) B (.ret (.error e)) fun r ρ => A ρ ∧ ReadFrom C cur r ρ := fun hB =>
    Triple.ret fun τ hτ => ⟨hB τ hτ, fun env body h => by cases h⟩
  refine Triple.step (o := Op.fs (.openRead (curPath cur)))
    (B := fun r ρ => A ρ ∧ ⟨.fs (.openRead (curPath cur)), r⟩ ∈ ρ)
    (fun τ r hτ => ⟨good_of_plain trivial, hA _ _ hτ, List.mem_cons_self⟩) fun r => ?_
  rcases r with e | file
  · exact hfail fun _ h => h.1
  refine Triple.step (o := Op.fs (.fstat file))
    (B := fun _ ρ => A ρ ∧ ⟨.fs (.openRead (curPath cur)), .ok file⟩ ∈ ρ)
    (fun τ r hτ => ⟨good_of_plain trivial, hA _ _ hτ.1, List.mem_cons_of_mem _ hτ.2⟩) fun r => ?_
  rcases r with e | md
  · exact hfail fun _ h => h.1
  show Triple _ _ (if md.kind ≠ .regular then _ else if md.len > maxFileBytes then _ else _) _
  by_cases hkind : md.kind ≠ .regular
  · rw [if_pos hkind]
    exact hfail fun _ h => h.1
  rw [if_neg hkind]
  by_cases hlen : md.len > maxFileBytes
  · rw [if_pos hlen]
    exact hfail fun _ h => h.1
  rw [if_neg hlen]
  refine Triple.step (o := Op.fs (.read file (maxFileBytes + 1)))
    (B := fun r ρ => A ρ ∧ ⟨.fs (.openRead (curPath cur)), .ok file⟩ ∈ ρ ∧
      ⟨.fs (.read file (maxFileBytes + 1)), r⟩ ∈ ρ)
    (fun τ r hτ => ⟨good_of_plain trivial, hA _ _ hτ.1, List.mem_cons_of_mem _ hτ.2,
      List.mem_cons_self⟩) fun r => ?_
  rcases r with e | bytes
  · exact hfail fun _ h => h.1
  · exact Triple.ret fun τ hτ => ⟨hτ.1, fun env body h => ⟨file, bytes, hτ.2.1, hτ.2.2, h⟩⟩

/-- A claim that is reported was taken from the queue. -/
theorem tryClaim_triple (name : String) :
    Triple (Good cfg) (fun _ => True) (tryClaim name) fun r ρ => ∀ cur, r = .ok (some cur) →
      cur = name ∧ Installed ⟨.new, name⟩ (curPath name) ρ := by
  have hnone : ∀ {A : Interleave.History Resp → Prop} {p : Prog Resp (Except String (Option String))},
      p.Only Plain → (p.Returns fun r => ∀ cur, r ≠ .ok (some cur)) →
        Triple (Good cfg) A p fun r ρ => ∀ cur, r = .ok (some cur) →
          cur = name ∧ Installed ⟨.new, name⟩ (curPath name) ρ := fun hp hr =>
    (Triple.of_only hp hr fun _ _ _ ho => good_of_plain ho).post fun r _ h cur heq =>
      absurd heq (h cur)
  have harch : (isArchived name).Only Plain := isArchived_only (fun _ => trivial) name
  have hstamp : (stampMtimeNow ⟨.new, name⟩).Only Plain :=
    (stampMtimeNow_only _).mono fun _ h => plain_of_files h.files
  refine (plain_triple harch Lasting.true).bind fun archived => ?_
  split
  · exact hnone (.step trivial fun _ => trivial) (.step fun _ cur => by simp)
  · refine (plain_triple hstamp Lasting.true).bind fun _ => Triple.step
      (B := fun r ρ => r = .ok () → Installed ⟨.new, name⟩ (curPath name) ρ)
      (fun τ r _ => ⟨good_of_plain trivial, fun h => h ▸ List.mem_cons_self⟩) fun r => ?_
    split
    · have hclaimed : Triple (Good cfg) (Installed ⟨.new, name⟩ (curPath name)) (isArchived name)
          fun _ => Installed ⟨.new, name⟩ (curPath name) := plain_triple harch Lasting.mem
      refine (hclaimed.pre fun _ h => h rfl).bind fun archived => ?_
      split
      · exact hnone (.step trivial fun _ => trivial) (.step fun _ cur => by simp)
      · refine Triple.ret fun ρ hρ cur h => ?_
        cases h
        exact ⟨rfl, hρ⟩
    · exact hnone trivial fun _ => by simp
    · exact hnone (.step trivial fun _ => trivial) (.step fun _ cur => by simp)
    · exact hnone trivial fun _ => by simp

/-- A prepared entry is run on a warrant. -/
def RunsOn (cfg : Config) (prepared : Prepared) (ρ : Interleave.History Resp) : Prop :=
  ∀ cur event, prepared = .run cur event → Warrant cfg cur event ρ

theorem prepare_triple (name : String) :
    Triple (Good cfg) (fun _ => True) (prepare cfg name) (RunsOn cfg) := by
  unfold prepare
  split
  · exact Triple.ret fun _ _ cur event h => by cases h
  · rename_i id _
    refine (tryClaim_triple name).bind fun r => ?_
    split
    · rename_i cur
      unfold prepareClaim
      by_cases hname : name ≠ jobFileName id
      · rw [if_pos hname]
        exact Triple.ret fun _ _ cur event h => by cases h
      · rw [if_neg hname]
        refine (Triple.pure_and (φ := cur = name) (A := Installed ⟨.new, name⟩ (curPath name)) ?_).pre
          fun τ hτ => hτ cur rfl
        rintro rfl
        refine (readSpoolFile_triple cfg.codec cur Lasting.mem).bind fun r => ?_
        split
        · exact Triple.ret fun _ _ cur event h => by cases h
        · rename_i env body
          refine Triple.ret fun τ hτ cur' event h => ?_
          obtain ⟨file, bytes, hopen, hread, hsplit⟩ := hτ.2 env body rfl
          unfold Prepared.ofVerdict at h
          split at h <;> cases h
          rename_i hrun
          exact .signed id env file bytes body (not_not.mp hname) hτ.1 hopen hread hsplit hrun
    · exact Triple.ret fun _ _ cur event h => by cases h

theorem dispatchPrepared_triple (prepared : Prepared) :
    Triple (Good cfg) (RunsOn cfg prepared) (dispatchPrepared prepared) fun _ _ => True := by
  have hplain : ∀ {α : Type} {A : Interleave.History Resp → Prop} {p : Prog Resp α},
      p.Only Plain → Triple (Good cfg) A p fun _ _ => True :=
    fun hp => (plain_triple hp Lasting.true).pre fun _ _ => trivial
  have hrelease : (sched .release).Only Plain := Prog.only_op trivial
  cases prepared with
  | run cur event =>
    refine Triple.step (B := fun _ _ => True) (fun τ u hτ => ⟨⟨fun owner repo h => ?_, ?_⟩, trivial⟩)
      fun _ => Triple.ret fun _ _ => trivial
    · cases h
    · rintro cur' event' heq
      cases heq
      exact hτ cur event rfl
  | drop cur reason =>
    exact hplain
      (((finalizeDone_only cur).mono fun _ h => plain_of_files h.files).bind fun _ => hrelease)
  | reject cur reason =>
    exact hplain
      (((finalizeError_only cur reason).mono fun _ h => plain_of_files h.files).bind
        fun _ => hrelease)
  | skip => exact hplain hrelease

section Reconciler

variable {repoFull : String} {job : JobStatus} {A : Interleave.History Resp → Prop}

/-- The job has been listed as queued for an allowed repository. -/
structure Listed (cfg : Config) (repoFull : String) (job : JobStatus)
    (ρ : Interleave.History Resp) : Prop where
  allowed : repoFull ∈ cfg.allowedRepos
  answered : ∃ owner repo jobs, splitOnce repoFull = some (owner, repo) ∧
    ⟨.hub (.listQueuedJobs owner repo), .ok jobs⟩ ∈ ρ ∧ job ∈ jobs

/-- A call of the runtime that starts nothing. -/
theorem sched_step {o : Sched.Op} {r : Resp (.sched o)} (hA : Lasting A) (hρ : A ρ)
    (ho : ∀ cur event, o ≠ .spawnJob cur event) :
    Good cfg ρ ⟨.sched o, r⟩ ∧ A (⟨.sched o, r⟩ :: ρ) := by
  refine ⟨good_of_plain ?_, hA _ _ hρ⟩
  cases o with
  | spawnJob cur event => exact absurd rfl (ho cur event)
  | _ => trivial

/-- A synthetic claim that is reported was put in its slot. -/
theorem writeSyntheticClaim_triple (hA : Lasting A) :
    Triple (Good cfg) A (writeSyntheticClaim cfg job repoFull) fun r ρ => A ρ ∧
      ∀ cur, r = .ok (some cur) → cur = jobFileName job.id ∧
        ∃ nonce, Installed (curPath (tmpName job cfg.pid nonce)) (curPath cur) ρ := by
  have hnone : ∀ {B : Interleave.History Resp → Prop} {p : Prog Resp (Except String (Option String))},
      (∀ ρ, B ρ → A ρ) → p.Only Plain → (p.Returns fun r => ∀ cur, r ≠ .ok (some cur)) →
        Triple (Good cfg) B p fun r ρ => A ρ ∧ ∀ cur, r = .ok (some cur) →
          cur = jobFileName job.id ∧
            ∃ nonce, Installed (curPath (tmpName job cfg.pid nonce)) (curPath cur) ρ :=
    fun hB hp hr => (((plain_triple hp hA).and_returns hr).pre hB).post fun r _ h =>
      ⟨h.2, fun cur heq => absurd heq (h.1 cur)⟩
  refine Triple.step (B := fun _ => A) (fun τ r hτ => ⟨good_of_plain trivial, hA _ _ hτ⟩) fun r => ?_
  split
  · exact hnone (fun _ h => h) trivial fun _ => by simp
  · refine Triple.step (B := fun _ => A)
      (fun τ r hτ => ⟨good_of_plain trivial, hA _ _ hτ⟩) fun nonce => ?_
    have hwrite : (writePrivateFile (curPath (tmpName job cfg.pid nonce))
        (syntheticBytes cfg.codec cfg.webhookSecret job repoFull)).Only Plain :=
      writePrivateFile_only trivial (fun _ => trivial) fun _ => trivial
    refine (plain_triple hwrite hA).bind fun r => ?_
    split
    · exact hnone (fun _ h => h) trivial fun _ => by simp
    · refine Triple.step (B := fun r ρ => A ρ ∧ (r = .ok () →
          Installed (curPath (tmpName job cfg.pid nonce)) (curPath (jobFileName job.id)) ρ))
        (fun τ r hτ => ⟨good_of_plain trivial, hA _ _ hτ, fun h => h ▸ List.mem_cons_self⟩)
        fun r => ?_
      split
      · have hstamp : (stampMtimeNow (curPath (jobFileName job.id))).Only Plain :=
          (stampMtimeNow_only _).mono fun _ h => plain_of_files h.files
        refine ((plain_triple hstamp (A := fun ρ => A ρ ∧ Installed _ _ ρ)
          fun e ρ h => ⟨hA e ρ h.1, Lasting.mem e ρ h.2⟩).pre fun _ h => ⟨h.1, h.2 rfl⟩).bind
            fun _ => Triple.ret fun ρ hρ => ⟨hρ.1, fun cur h => ?_⟩
        cases h
        exact ⟨rfl, nonce, hρ.2⟩
      · exact hnone (fun _ h => h.1) (.step trivial fun _ => trivial) (.step fun _ cur => by simp)
      · exact hnone (fun _ h => h.1) (.step trivial fun _ => trivial) (.step fun _ cur => by simp)

/-- A worker is started for the job listed. -/
theorem mintClaimed_triple (hA : Lasting A) (hlisted : ∀ τ, A τ → Listed cfg repoFull job τ)
    (hlabels : classifyJobLabels cfg.codec job.labels cfg.runnerLabel cfg.runnerLabels = .accept) :
    Triple (Good cfg) A ((mintClaimed repoFull job).lower (Call.impl cfg fuel)) fun _ => A := by
  refine Triple.lowerStep (writeSyntheticClaim_triple hA) fun r => ?_
  split
  · rename_i cur
    refine Triple.step (B := fun _ => A) (fun τ u hτ => ⟨⟨fun owner repo h => (by cases h),
      fun cur' event' heq => ?_⟩, hA _ _ hτ.1⟩) fun _ => Triple.ret fun _ hτ => hτ
    cases heq
    obtain ⟨owner, repo, jobs, hsplit, hans, hmem⟩ := (hlisted τ hτ.1).answered
    obtain ⟨hname, nonce, hclaimed⟩ := hτ.2 cur rfl
    exact .listed repoFull owner repo jobs job nonce (hlisted τ hτ.1).allowed hsplit hans hmem
      hlabels rfl hname hclaimed
  · exact Triple.op fun τ r hτ => sched_step hA hτ.1 (by simp)

theorem mintJob_triple (hA : Lasting A) (hlisted : ∀ τ, A τ → Listed cfg repoFull job τ)
    (hlabels : classifyJobLabels cfg.codec job.labels cfg.runnerLabel cfg.runnerLabels = .accept) :
    Triple (Good cfg) A ((mintJob repoFull job).lower (Call.impl cfg fuel)) fun _ => A := by
  refine Triple.step (B := fun _ => A) (fun τ r hτ => sched_step hA hτ (by simp)) fun permit => ?_
  cases permit with
  | false => exact Triple.ret fun _ hτ => hτ
  | true =>
    refine Triple.step (o := Op.sched .isPaused) (B := fun _ => A)
      (fun τ r hτ => sched_step hA hτ (by simp)) fun paused => ?_
    cases paused with
    | true =>
      exact Triple.step (o := Op.sched .release) (B := fun _ => A)
        (fun τ r hτ => sched_step hA hτ (by simp)) fun _ => Triple.ret fun _ hτ => hτ
    | false =>
      show Triple (Good cfg) A
        ((mintClaimed repoFull job >>= fun _ => pure true).lower (Call.impl cfg fuel)) fun _ => A
      exact Triple.lowerBind (mintClaimed_triple hA hlisted hlabels) fun _ =>
        Triple.ret fun _ hτ => hτ

/-- The jobs of a queue that have all been listed. -/
theorem mintQueued_triple (hA : Lasting A) (live idle : List String) (queue : List JobStatus)
    (hlisted : ∀ job ∈ queue, ∀ τ, A τ → Listed cfg repoFull job τ) :
    Triple (Good cfg) A
      ((mintQueued cfg repoFull live idle queue).lower (Call.impl cfg fuel)) fun _ => A := by
  induction queue with
  | nil => exact Triple.ret fun _ hτ => hτ
  | cons job rest ih =>
    refine Triple.step (o := Op.sched .isPaused) (B := fun _ => A)
      (fun τ r hτ => sched_step hA hτ (by simp)) fun paused => ?_
    have hrest := ih fun job' hmem => hlisted job' (List.mem_cons_of_mem _ hmem)
    cases paused with
    | true => exact Triple.ret fun _ hτ => hτ
    | false =>
      show Triple (Good cfg) A (Prog.lower (Call.impl cfg fuel)
        (mintNext cfg repoFull live idle job (mintQueued cfg repoFull live idle rest))) fun _ => A
      unfold mintNext
      split
      · exact hrest
      · rename_i hlabels
        split
        · exact hrest
        · refine Triple.lowerBind
            (mintJob_triple hA (hlisted job List.mem_cons_self) hlabels) fun more => ?_
          cases more with
          | true => exact hrest
          | false => exact Triple.ret fun _ hτ => hτ

/-- A call to GitHub about an allowed repository. -/
theorem about_good {o : Hub.Op} {r : Resp (.hub o)} {owner repo : String}
    (ho : repoOf (.hub o) = some (owner, repo)) (hallowed : owner ++ "/" ++ repo ∈ cfg.allowedRepos) :
    Good cfg ρ ⟨.hub o, r⟩ :=
  ⟨about_of_repoOf ho hallowed, fun cur event h => by cases h⟩

theorem reconcileRepos_triple (live repos : List String) (hrepos : ∀ full ∈ repos, full ∈ cfg.allowedRepos) :
    Triple (Good cfg) (fun _ => True)
      ((reconcileRepos cfg live repos).lower (Call.impl cfg fuel)) fun _ _ => True := by
  induction repos with
  | nil => exact Triple.ret fun _ _ => trivial
  | cons repoFull rest ih =>
    refine Triple.step (o := Op.sched .isPaused) (B := fun _ _ => True)
      (fun τ r hτ => sched_step Lasting.true hτ (by simp)) fun paused => ?_
    have hrest := ih fun full hmem => hrepos full (List.mem_cons_of_mem _ hmem)
    have hallowed := hrepos repoFull List.mem_cons_self
    cases paused with
    | true => exact Triple.ret fun _ _ => trivial
    | false =>
      show Triple (Good cfg) (fun _ => True) (Prog.lower (Call.impl cfg fuel)
        (reconcileNext cfg live repoFull (reconcileRepos cfg live rest))) fun _ _ => True
      unfold reconcileNext
      split
      · exact hrest
      · rename_i owner repo hsplit
        have hname : owner ++ "/" ++ repo ∈ cfg.allowedRepos := splitOnce_eq hsplit ▸ hallowed
        refine Triple.step (o := Op.hub (.listRunners owner repo vmNamePrefix))
          (B := fun _ _ => True) (fun τ r _ => ⟨about_good rfl hname, trivial⟩) fun runners => ?_
        rcases runners with e | runners
        · exact hrest
        · refine Triple.step (o := Op.hub (.listQueuedJobs owner repo))
            (B := fun r τ => ⟨.hub (.listQueuedJobs owner repo), r⟩ ∈ τ)
            (fun τ r _ => ⟨about_good rfl hname, List.mem_cons_self⟩) fun queued => ?_
          rcases queued with e | queued
          · exact hrest.pre fun _ _ => trivial
          · show Triple (Good cfg) _ (Prog.lower (Call.impl cfg fuel)
              (mintQueued cfg repoFull live (idleRunners runners) queued >>= fun more =>
                if more then reconcileRepos cfg live rest else pure ())) fun _ _ => True
            refine Triple.lowerBind (mintQueued_triple Lasting.mem live _ queued
              fun job hmem τ hτ => ⟨hallowed, owner, repo, queued, hsplit, hτ, hmem⟩) fun more => ?_
            cases more with
            | true => exact hrest.pre fun _ _ => trivial
            | false => exact Triple.ret fun _ _ => trivial

theorem reconcileTick_triple :
    Triple (Good cfg) (fun _ => True) (reconcileTick cfg fuel) fun next _ => next = some .reconcile := by
  refine Triple.step (o := Op.sched .sleep) (B := fun _ _ => True)
    (fun τ r hτ => sched_step Lasting.true hτ (by simp)) fun _ => ?_
  refine Triple.step (o := Op.sched .isPaused) (B := fun _ _ => True)
    (fun τ r hτ => sched_step Lasting.true hτ (by simp)) fun paused => ?_
  cases paused with
  | true => exact Triple.ret fun _ _ => rfl
  | false =>
    have hread : Triple (Good cfg) (fun _ => True)
        ((liveVmMapFromCur fuel).lower (Call.impl cfg fuel)) fun _ _ => True := by
      refine plain_triple ((liveVmMapFromCur_only fun _ h => h).lower _ fun c hc => ?_) Lasting.true
      cases c with
      | host o =>
        cases o with
        | fs o => exact Prog.only_op trivial
        | _ => exact hc.elim
      | _ => exact hc.elim
    have hinner : Triple (Good cfg) (fun _ => True)
        ((reconcileInner cfg fuel).lower (Call.impl cfg fuel)) fun _ _ => True := by
      refine Triple.lowerBind hread fun claims => ?_
      rcases claims with e | claims
      · exact Triple.ret fun _ _ => trivial
      · exact Triple.lowerBind (reconcileRepos_triple _ _ fun _ h => h) fun _ =>
          Triple.ret fun _ _ => trivial
    show Triple _ _ (((reconcileInner cfg fuel).lower (Call.impl cfg fuel)) >>= fun _ =>
      pure (some Task.reconcile)) _
    exact hinner.bind fun _ => Triple.ret fun _ _ => rfl

end Reconciler

section Collector

/-- The calls of the collector: about allowed repositories, and starting
no worker. -/
def Tame (cfg : Config) (o : Op) : Prop :=
  About (Allowed cfg) o ∧ ∀ cur event, o ≠ .sched (.spawnJob cur event)

theorem Tame.good (h : Tame cfg o) : Good cfg ρ ⟨o, r⟩ := ⟨h.1, fun cur event ho => (h.2 cur event ho).elim⟩

theorem Plain.tame (h : Plain o) : Tame cfg o := by
  refine ⟨fun owner repo ho => ?_, ?_⟩
  · cases o with
    | hub => exact h.elim
    | fs | sched | lima => cases ho
  · rintro cur event rfl
    exact h

theorem impl_tame {c : Call} (hc : c.ofSweep cfg) : (c.impl cfg fuel).Only (Tame cfg) := by
  have hlima : ∀ o, Tame cfg (.lima o) := fun o => Plain.tame (o := .lima o) trivial
  cases c with
  | host o =>
    refine Prog.only_op ?_
    cases o with
    | fs o => exact Plain.tame (o := .fs o) trivial
    | lima o => exact hlima o
    | sched o =>
      cases o with
      | log => exact Plain.tame (o := .sched (.log _)) trivial
      | _ => exact hc.elim
    | hub o =>
      cases o with
      | listRunners owner repo | deleteRunner owner repo =>
        obtain ⟨repoFull, hallowed, hsplit⟩ := hc
        exact ⟨about_of_repoOf rfl (splitOnce_eq hsplit ▸ hallowed), by simp⟩
      | _ => exact hc.elim
  | writeSyntheticClaim => exact hc.elim
  | finalizeError | expireStaleCur | pruneOldArchives | pruneSerialLogs | pruneStaleJitBlobs =>
    exact Prog.Only.mono (impl_files (by trivial)) fun _ ho => (plain_of_files ho).tame
  | stop vm => exact Lima.stopVm_only hlima vm
  | delete vm => exact Lima.deleteVm_only hlima cfg.codec vm
  | listInstances => exact Lima.listInstances_only hlima cfg.codec

theorem gcTick_tame : (gcTick cfg fuel).Only (Tame cfg) := by
  refine .step (Plain.tame trivial) fun _ => ?_
  exact (sweepInner_calls.lower _ fun _ => impl_tame).bind fun _ => trivial

end Collector

/-! ## Every task -/

/-- A worker asks GitHub about its job's repository alone. -/
theorem about_of_life {s s' : Life.Phase} (h : Life.Step cur event s ⟨o, r⟩ s') :
    About (· = event.repository.fullName) o := by
  have hfor : ∀ {l : Life.Lease}, l.For event → l.owner ++ "/" ++ l.repo = event.repository.fullName :=
    fun hl => (splitFullName_eq hl.repo).symm
  cases h with
  | mint hl => exact about_of_repoOf rfl (hfor hl)
  | unminted _ hsplit => exact about_of_repoOf rfl (splitFullName_eq hsplit).symm
  | giveUp hl => exact about_of_repoOf rfl (hfor hl)
  | ask _ hsplit => exact about_of_repoOf rfl (splitOnce_eq hsplit).symm
  | @mind l o r hminds hl =>
    intro owner repo ho
    cases o with
    | hub o =>
      cases o with
      | runnerStatus owner' repo' id =>
        cases ho
        obtain ⟨rfl, rfl, -⟩ := hminds
        exact hfor hl
      | _ => exact hminds.elim
    | fs | sched | lima => cases ho
  | @save l o r hsaves =>
    intro owner repo ho
    cases o with
    | hub o => exact hsaves.elim
    | fs | sched | lima => cases ho
  | _ =>
    intro owner repo ho
    cases ho

variable (cfg fuel) in
/-- What the loops make sure of; the workers are watched over by their
life. -/
def habits : Habits (machine cfg fuel) where
  good _ k ρ e := Ownership.job k = none → Good cfg ρ e
  pre _ _ _ := True

theorem sound_habits : (habits cfg fuel).Sound where
  forks _ := trivial
  body t k := by
    have hloop : ∀ {k : Task} {Q : Option Task → Interleave.History Resp → Prop},
        Triple (Good cfg) (fun _ => True) (body cfg fuel k) Q →
        Triple ((habits cfg fuel).good t k) ((habits cfg fuel).pre t k) ((machine cfg fuel).body k)
          ((habits cfg fuel).post t) := fun h τ hτ =>
      ((h τ hτ).weaken fun _ _ hgood _ => hgood).mono fun next _ _ => by cases next <;> trivial
    have hplain : ∀ {p : Prog Resp (Option Task)}, p.Only Plain →
        Triple (Good cfg) (fun _ => True) p fun _ _ => True :=
      fun hp => plain_triple hp Lasting.true
    cases k with
    | dispatch =>
      have hrecv : (sched .recv).Only Plain := Prog.only_op trivial
      exact hloop (hplain (hrecv.bind fun _ => trivial))
    | permit name =>
      exact hloop (hplain ((acquirePermit_only trivial trivial trivial trivial).bind fun _ => trivial))
    | prepare name =>
      exact hloop (Q := fun _ _ => True) ((prepare_triple name).bind fun prepared =>
        (dispatchPrepared_triple prepared).bind fun _ => Triple.ret fun _ _ => trivial)
    | reconcile => exact hloop reconcileTick_triple
    | gc => exact hloop (Triple.of_only gcTick_tame (Prog.returns_true _) fun _ _ _ ho => ho.good)
    | work cur event =>
      exact (Triple.of_only (Prog.only_true _) (Prog.returns_true _) fun _ _ _ _ hnone => by
        cases hnone).post fun next _ _ => by cases next <;> trivial

variable {c₀ c : Pool} {Meets : Daemon.State → Line → Prop}

/-- Only a spawn starts a thread. -/
theorem spawns_of_forks {u : Tid} {k : Task} (h : forks o r = some (u, k)) :
    ∃ cur event, o = .sched (.spawnJob cur event) := by
  cases o with
  | sched o =>
    cases o with
    | spawnJob cur event => exact ⟨cur, event, rfl⟩
    | _ => cases h
  | _ => cases h

/-- A worker was started. -/
theorem spawned_of_working {u : Tid} {τ : Daemon.History} (h : working u τ = some (cur, event)) :
    ∃ t k w σ, .did t k (.sched (.spawnJob cur event)) u w :: σ <:+ τ := by
  induction τ with
  | nil => cases h
  | cons x τ ih =>
    have htail : working u τ = some (cur, event) →
        ∃ t k w σ, .did t k (.sched (.spawnJob cur event)) u w :: σ <:+ x :: τ := by
      intro h
      obtain ⟨t, k, w, σ, hsuf⟩ := ih h
      exact ⟨t, k, w, σ, hsuf.trans (List.suffix_cons _ _)⟩
    cases x with
    | ended v k w =>
      simp only [working] at h
      split at h
      · cases h
      · exact htail h
    | did t k o r w =>
      by_cases hspawn : ∃ cur' event', o = .sched (.spawnJob cur' event')
      · obtain ⟨cur', event', rfl⟩ := hspawn
        simp only [working] at h
        split at h
        · rename_i heq
          cases h
          exact ⟨t, k, w, τ, heq ▸ List.suffix_refl _⟩
        · exact htail h
      · rw [Ownership.working_did_of_ne fun v k' hf => absurd (spawns_of_forks hf) hspawn] at h
        exact htail h

/-- What is known of a history's jobs. -/
structure Warranted (cfg : Config) (τ : Daemon.History) : Prop where
  /-- A worker is started on a warrant. -/
  starts : ∀ t k cur event u w σ, .did t k (.sched (.spawnJob cur event)) u w :: σ <:+ τ →
    Warrant cfg cur event (Entry.own t σ)
  /-- Whoever works, works at an authorised job. -/
  works : ∀ u cur event o r w σ, .did u (.work cur event) o r w :: σ <:+ τ →
    Authorised cfg cur event
  /-- GitHub is asked about allowed repositories alone. -/
  asks : ∀ t k o r w σ, .did t k o r w :: σ <:+ τ → About (Allowed cfg) o

/-- A line of a loop is a good one. -/
theorem good_line (h₀ : Daemon.Start cfg fuel c₀) (hr : (machine cfg fuel).Run Meets c₀ c) {t : Tid}
    {k : Task} {w : World} {σ : Daemon.History} (hk : Ownership.job k = none)
    (hsuf : .did t k o r w :: σ <:+ c.trace) : Good cfg (Entry.own t σ) ⟨o, r⟩ :=
  sound_habits.line (h₀.habits trivial trivial trivial) hr hsuf hk

/-- A line of a worker is a step of its life. -/
theorem life_line (h₀ : Daemon.Start cfg fuel c₀) (hr : (machine cfg fuel).Run Meets c₀ c) {u : Tid}
    {w : World} {σ : Daemon.History} (hsuf : .did u (.work cur event) o r w :: σ <:+ c.trace) :
    ∃ s s', Life.Step cur event s ⟨o, r⟩ s' := by
  have hholds := Life.sound_monitor.run (Life.start_monitor h₀) hr
  obtain ⟨s, s', -, hn⟩ := Monitor.next_of_line (hholds.accepted u) hsuf
  exact ⟨s, s', hn⟩

theorem warrant_of_spawn (h₀ : Daemon.Start cfg fuel c₀) (hr : (machine cfg fuel).Run Meets c₀ c)
    {t u : Tid} {k : Task} {w : World} {σ : Daemon.History}
    (hsuf : .did t k (.sched (.spawnJob cur event)) u w :: σ <:+ c.trace) :
    Warrant cfg cur event (Entry.own t σ) := by
  cases hk : Ownership.job k with
  | none => exact (good_line h₀ hr hk hsuf).warrant cur event rfl
  | some j =>
    cases k with
    | work cur' event' =>
      -- a worker starts no other
      obtain ⟨s, s', hs⟩ := life_line h₀ hr hsuf
      cases hs with
      | mind h | save h => exact h.elim
    | _ => cases hk

theorem authorised_of_work (h₀ : Daemon.Start cfg fuel c₀)
    (hr : (machine cfg fuel).Run Meets c₀ c) {u : Tid} {w : World} {σ : Daemon.History}
    (hsuf : .did u (.work cur event) o r w :: σ <:+ c.trace) : Authorised cfg cur event := by
  obtain ⟨c₁, c₂, hr₁, -, rfl, hs, -⟩ := hr.exists_of_line h₀.trace hsuf
  cases hs with
  | call hat =>
    have hworking := ((Ownership.staffed_run h₀ hr₁).stands u _ _ hat).job
    obtain ⟨t, k, w', ρ, hspawn⟩ := spawned_of_working hworking
    exact (warrant_of_spawn h₀ hr₁ hspawn).authorised

theorem about_of_line (h₀ : Daemon.Start cfg fuel c₀) (hr : (machine cfg fuel).Run Meets c₀ c)
    {t : Tid} {k : Task} {w : World} {σ : Daemon.History}
    (hsuf : .did t k o r w :: σ <:+ c.trace) : About (Allowed cfg) o := by
  cases hk : Ownership.job k with
  | none => exact (good_line h₀ hr hk hsuf).about
  | some j =>
    cases k with
    | work cur event =>
      obtain ⟨s, s', hs⟩ := life_line h₀ hr hsuf
      have hrepo := (authorised_of_work h₀ hr hsuf).repo
      intro owner repo ho
      have heq : owner ++ "/" ++ repo = event.repository.fullName := about_of_life hs owner repo ho
      exact heq ▸ hrepo
    | _ => cases hk

/-- **Every job of every run has its warrant**, and no other repository is
asked about. -/
theorem warranted_run (h₀ : Daemon.Start cfg fuel c₀) (hr : (machine cfg fuel).Run Meets c₀ c) :
    Warranted cfg c.trace where
  starts _ _ _ _ _ _ _ hsuf := warrant_of_spawn h₀ hr hsuf
  works _ _ _ _ _ _ _ hsuf := authorised_of_work h₀ hr hsuf
  asks _ _ _ _ _ _ hsuf := about_of_line h₀ hr hsuf

/-- A job listed as queued, run on that warrant. -/
theorem warranted_run_sample :
    ∃ c, (machine sampleConfig 1).Run (fun _ _ => True) (Pause.samplePool (.sample [] 0)) c ∧
      Life.lastEnded c = some ("42.job", true) ∧ Warranted sampleConfig c.trace := by
  obtain ⟨c, hc, hlast⟩ := Option.map_eq_some_iff.mp Life.ended_sample
  have hr := (Machine.run_of_follow hc).mono fun _ _ _ => trivial
  exact ⟨c, hr, hlast, warranted_run (Pause.samplePool_start rfl rfl rfl rfl) hr⟩

end Provenance

end GhaConsumer

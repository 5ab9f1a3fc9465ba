import GhaConsumer.Interleave.Served
import GhaConsumer.GitHub.Model
import GhaConsumer.Data
import Mathlib.Data.List.Destutter

/-!
# GitHub — the paginated listings

`list_runners`, `list_run_jobs` and `list_queued_jobs` read their
listings page by page until a page is short. `list_queued_jobs` reads the
runs under two statuses and the jobs of every run; what it returns is
sorted by id and has each id once. On a repository that does not change
both return what is listed there (`listings_eq`), as long as no listing
has more pages than the counter can name: on a longer one the loop never
returns (`listings_of_long`).
-/

namespace GhaConsumer

namespace GitHub

namespace Listing

open Interleave

/-- A workflow run, with the id of its repository. -/
structure WorkflowRun where
  id : UInt64
  repository : UInt64
  deriving DecidableEq, Repr

/-- A page of a listing; each is one `send_authed`. -/
inductive Query where
  /-- `GET /repos/{owner}/{repo}/actions/runs?status={status}&per_page=100&page={page}`. -/
  | runs (owner repo status : String) (page : UInt32)
  /-- `GET /repos/{owner}/{repo}/actions/runs/{run}/jobs?per_page=100&page={page}`. -/
  | runJobs (owner repo : String) (run : UInt64) (page : UInt32)
  /-- `GET /repos/{owner}/{repo}/actions/runners?per_page=100&page={page}`. -/
  | runners (owner repo : String) (page : UInt32)
  deriving DecidableEq, Repr

@[reducible] def Page : Query → Type
  | .runs .. => Answer (List WorkflowRun)
  | .runJobs .. => Answer (List JobStatus)
  | .runners .. => Answer (List Runner)

abbrev Requests := Prog Page

/-- What a listing comes to; the error `none` is a loop still running
when its fuel is spent. -/
abbrev Outcome (α : Type) := Except (Option Error) α

/-- The body of an answer, where it is a success. -/
def bodyOf {α : Type} (what : String) : Answer α → Outcome α
  | .error e => .error (some e)
  | .ok resp =>
    if resp.status.isSuccess then resp.json.mapError some
    else .error (some [what ++ ": " ++ resp.status.text ++ " " ++ resp.text])

def perPage : ℕ := 100

/-! ## The loops -/

/-- `list_runners`. -/
def listRunners (fuel : ℕ) (owner repo pre : String) : Requests (Outcome (List Runner)) :=
  .paged perPage none
    (fun page => do
      let resp ← Prog.op (.runners owner repo page)
      pure (bodyOf ("list runners " ++ owner ++ "/" ++ repo) resp))
    (fun out body => pure (.ok (out ++ body.filter fun r => r.name.startsWith pre)))
    fuel 1 []

/-- `list_run_jobs`. -/
def listRunJobs (fuel : ℕ) (owner repo : String) (run : UInt64) : Requests (Outcome (List JobStatus)) :=
  .paged perPage none
    (fun page => do
      let resp ← Prog.op (.runJobs owner repo run page)
      pure (bodyOf
        ("list run jobs " ++ owner ++ "/" ++ repo ++ " run=" ++ toString run.toNat) resp))
    (fun out body => pure (.ok (out ++ body)))
    fuel 1 []

/-- The queued jobs of a run, with its repository. -/
def stamped (run : WorkflowRun) (jobs : List JobStatus) : List JobStatus :=
  (jobs.filter fun job => job.status = "queued").map fun job =>
    { job with repoId := run.repository }

def takeRun (fuel : ℕ) (owner repo : String) (out : List JobStatus) (run : WorkflowRun) :
    Requests (Outcome (List JobStatus)) := do
  match ← listRunJobs fuel owner repo run.id with
  | .error e => pure (.error e)
  | .ok jobs => pure (.ok (out ++ stamped run jobs))

/-- The runs under a status, page by page. -/
def takeStatus (fuel : ℕ) (owner repo : String) (out : List JobStatus) (status : String) :
    Requests (Outcome (List JobStatus)) :=
  .paged perPage none
    (fun page => do
      let resp ← Prog.op (.runs owner repo status page)
      pure (bodyOf ("list runs " ++ owner ++ "/" ++ repo ++ " status=" ++ status) resp))
    (fun out body => .forEach (takeRun fuel owner repo) body out)
    fuel 1 out

/-- `sort_by_key(|j| j.id)`, which is stable. -/
def sortById (jobs : List JobStatus) : List JobStatus :=
  jobs.mergeSort fun a b => a.id ≤ b.id

/-- `dedup_by_key(|j| j.id)`: of neighbours with one id the first stays. -/
def dedupById (jobs : List JobStatus) : List JobStatus :=
  jobs.destutter fun a b => a.id ≠ b.id

/-- `list_queued_jobs`. -/
def listQueuedJobs (fuel : ℕ) (owner repo : String) : Requests (Outcome (List JobStatus)) := do
  match ← Prog.forEach (takeStatus fuel owner repo) ["queued", "in_progress"] [] with
  | .error e => pure (.error e)
  | .ok out => pure (.ok (dedupById (sortById out)))

/-! ## A repository that does not change -/

/-- What GitHub has. A job's id tells it from every other of the
repository. -/
structure Served where
  runs : (owner repo status : String) → List WorkflowRun
  runJobs : (owner repo : String) → UInt64 → List JobStatus
  runners : (owner repo : String) → List Runner
  oneJob : ∀ owner repo run run' a b, a ∈ runJobs owner repo run → b ∈ runJobs owner repo run' →
    a.id = b.id → a = b

/-- A page, with success. -/
def served {ι : Type} (l : List ι) (page : UInt32) : Answer (List ι) :=
  .ok ⟨⟨200, "200 OK"⟩, "", .ok (Prog.pageOf perPage l page)⟩

namespace Served

variable (gh : Served)

def answer : (q : Query) → Page q
  | .runs owner repo status page => served (gh.runs owner repo status) page
  | .runJobs owner repo run page => served (gh.runJobs owner repo run) page
  | .runners owner repo page => served (gh.runners owner repo) page

/-- The runs that are looked at. -/
def active (owner repo : String) : List WorkflowRun :=
  gh.runs owner repo "queued" ++ gh.runs owner repo "in_progress"

/-- `job` is queued, in a run that is looked at, and `j` is `job` with
that run's repository. -/
def Stamps (owner repo : String) (job j : JobStatus) : Prop :=
  job.status = "queued" ∧ ∃ run ∈ gh.active owner repo, job ∈ gh.runJobs owner repo run.id ∧
    j = { job with repoId := run.repository }

/-- How many entries the page counter can reach. -/
def reach : ℕ := perPage * (2 ^ 32 - 1)

/-- Every listing of the repository that is read ends before the page
counter comes round. -/
structure Short (owner repo : String) : Prop where
  queued : (gh.runs owner repo "queued").length < reach
  inProgress : (gh.runs owner repo "in_progress").length < reach
  jobs : ∀ run ∈ gh.active owner repo, (gh.runJobs owner repo run.id).length < reach
  runners : (gh.runners owner repo).length < reach

end Served

/-! ## Sorted, each id once -/

variable {l : List JobStatus} {a b j : JobStatus}

theorem sortById_pairwise (l : List JobStatus) :
    (sortById l).Pairwise fun a b => a.id ≤ b.id := by
  have htrans : ∀ a b c : JobStatus, decide (a.id ≤ b.id) = true → decide (b.id ≤ c.id) = true →
      decide (a.id ≤ c.id) = true := by
    intro a b c hab hbc
    rw [decide_eq_true_eq] at hab hbc ⊢
    exact UInt64.le_trans hab hbc
  have htotal : ∀ a b : JobStatus, (decide (a.id ≤ b.id) || decide (b.id ≤ a.id)) = true := by
    intro a b
    rw [Bool.or_eq_true, decide_eq_true_eq, decide_eq_true_eq]
    exact UInt64.le_total a.id b.id
  have h := List.pairwise_mergeSort htrans htotal l
  exact h.imp fun hab => decide_eq_true_eq.mp hab

theorem mem_sortById : j ∈ sortById l ↔ j ∈ l := (List.mergeSort_perm _ _).mem_iff

theorem mem_of_mem_dedupById (h : j ∈ dedupById l) : j ∈ l :=
  (List.destutter_sublist _ l).subset h

/-- What the dedup drops has the id of something that stays. -/
theorem exists_mem_dedupById (h : a ∈ l) : ∃ b ∈ dedupById l, b.id = a.id := by
  have hfrom : ∀ (l : List JobStatus) (c : JobStatus), ∀ a ∈ c :: l,
      ∃ b ∈ l.destutter' (fun a b => a.id ≠ b.id) c, b.id = a.id := by
    intro l
    induction l with
    | nil =>
      intro c a ha
      exact ⟨a, ha, rfl⟩
    | cons d l ih =>
      intro c a ha
      by_cases hcd : c.id ≠ d.id
      · rw [List.destutter'_cons_pos l hcd]
        rcases List.mem_cons.mp ha with rfl | ha
        · exact ⟨a, List.mem_cons_self, rfl⟩
        · obtain ⟨b, hb, hba⟩ := ih d a ha
          exact ⟨b, List.mem_cons_of_mem _ hb, hba⟩
      · rw [List.destutter'_cons_neg l hcd]
        have hmem : c ∈ c :: l := List.mem_cons_self
        rcases List.mem_cons.mp ha with rfl | ha
        · exact ih a a hmem
        · rcases List.mem_cons.mp ha with rfl | ha
          · obtain ⟨b, hb, hbc⟩ := ih c c hmem
            exact ⟨b, hb, hbc.trans (not_not.mp hcd)⟩
          · exact ih c a (List.mem_cons_of_mem _ ha)
  cases l with
  | nil => cases h
  | cons c l => exact hfrom l c a h

/-- Sorted and without equal neighbours, the ids increase. -/
theorem dedupById_pairwise (h : l.Pairwise fun a b => a.id ≤ b.id) :
    (dedupById l).Pairwise fun a b => a.id < b.id := by
  have hsplit : ∀ d : List JobStatus, (d.Pairwise fun a b => a.id ≤ b.id) →
      (d.IsChain fun a b => a.id ≠ b.id) → d.Pairwise fun a b => a.id < b.id := by
    intro d hle hne
    induction d with
    | nil => exact List.Pairwise.nil
    | cons a d ih =>
      rw [List.pairwise_cons] at hle ⊢
      refine ⟨fun x hx => ?_, ih hle.2 hne.tail⟩
      cases d with
      | nil => cases hx
      | cons b d =>
        have hab : a.id < b.id := UInt64.lt_of_le_of_ne (hle.1 b List.mem_cons_self)
          (List.isChain_cons_cons.mp hne).1
        rcases List.mem_cons.mp hx with rfl | hx
        · exact hab
        · exact UInt64.lt_of_lt_of_le hab ((List.pairwise_cons.mp hle.2).1 x hx)
  exact hsplit _ (h.sublist (List.destutter_sublist _ l)) (List.isChain_destutter _ l)

/-! ## What the loops take -/

variable {gh : Served} {owner repo pre status : String} {fuel : ℕ}

theorem eval_listRunners (hshort : (gh.runners owner repo).length < Served.reach)
    (hfuel : 2 ^ 32 ≤ fuel) : (listRunners fuel owner repo pre).eval gh.answer =
      .ok ((gh.runners owner repo).filter fun r => r.name.startsWith pre) := by
  refine Prog.eval_paged
    (g := fun (out body : List Runner) => out ++ body.filter fun r => r.name.startsWith pre)
    (by decide) (fun _ => rfl) (fun _ _ _ => rfl) (fun s xs ys => ?_) hshort hfuel []
  rw [List.filter_append, List.append_assoc]

theorem eval_listRunJobs {run : UInt64}
    (hshort : (gh.runJobs owner repo run).length < Served.reach) (hfuel : 2 ^ 32 ≤ fuel) :
    (listRunJobs fuel owner repo run).eval gh.answer = .ok (gh.runJobs owner repo run) :=
  Prog.eval_paged (g := fun out body => out ++ body) (by decide) (fun p => rfl)
    (fun s xs _ => rfl) (fun s xs ys => List.append_assoc s xs ys) hshort hfuel []

/-- The queued jobs of these runs. -/
def Served.jobsOf (gh : Served) (owner repo : String) (runs : List WorkflowRun) : List JobStatus :=
  runs.flatMap fun run => stamped run (gh.runJobs owner repo run.id)

/-- The jobs of these runs are taken up in order. -/
theorem eval_takeRuns {runs : List WorkflowRun}
    (hshort : ∀ run ∈ runs, (gh.runJobs owner repo run.id).length < Served.reach)
    (hfuel : 2 ^ 32 ≤ fuel) (out : List JobStatus) :
    (Prog.forEach (takeRun fuel owner repo) runs out).eval gh.answer =
      .ok (out ++ gh.jobsOf owner repo runs) := by
  have hrun : ∀ out, ∀ run ∈ runs, (takeRun fuel owner repo out run).eval gh.answer =
      .ok (out ++ stamped run (gh.runJobs owner repo run.id)) := by
    intro out run hmem
    rw [takeRun, Prog.eval_bind, eval_listRunJobs (hshort run hmem) hfuel]
    rfl
  rw [Prog.eval_forEach hrun, Served.jobsOf]
  congr 1
  clear hrun hshort
  induction runs generalizing out with
  | nil => exact (List.append_nil out).symm
  | cons run runs ih => rw [List.foldl_cons, ih, List.flatMap_cons, List.append_assoc]

/-- The runs of a status, where its listing ends before the counter comes
round. -/
theorem eval_takeStatus (status : String) (hruns : (gh.runs owner repo status).length < Served.reach)
    (hjobs : ∀ run ∈ gh.runs owner repo status,
      (gh.runJobs owner repo run.id).length < Served.reach)
    (hfuel : 2 ^ 32 ≤ fuel) (out : List JobStatus) :
    (takeStatus fuel owner repo out status).eval gh.answer =
      .ok (out ++ gh.jobsOf owner repo (gh.runs owner repo status)) := by
  refine Prog.eval_paged (g := fun out body => out ++ gh.jobsOf owner repo body) (by decide)
    (fun p => rfl) (fun s xs hxs => ?_) (fun s xs ys => ?_) hruns hfuel out
  · exact eval_takeRuns (fun run hrun => hjobs run (hxs run hrun)) hfuel s
  · rw [Served.jobsOf, Served.jobsOf, Served.jobsOf, List.flatMap_append, List.append_assoc]

theorem eval_listQueuedJobs (h : gh.Short owner repo) (hfuel : 2 ^ 32 ≤ fuel) :
    (listQueuedJobs fuel owner repo).eval gh.answer =
      .ok (dedupById (sortById (gh.jobsOf owner repo (gh.active owner repo)))) := by
  have hactive : gh.jobsOf owner repo (gh.active owner repo) =
      gh.jobsOf owner repo (gh.runs owner repo "queued") ++
        gh.jobsOf owner repo (gh.runs owner repo "in_progress") := List.flatMap_append
  have hqueued := eval_takeStatus "queued" h.queued
    (fun run hrun => h.jobs run (List.mem_append_left _ hrun)) hfuel []
  have hprogress := fun out => eval_takeStatus "in_progress" h.inProgress
    (fun run hrun => h.jobs run (List.mem_append_right _ hrun)) hfuel out
  have hboth : (Prog.forEach (takeStatus fuel owner repo) ["queued", "in_progress"] []).eval
      gh.answer = .ok (gh.jobsOf owner repo (gh.active owner repo)) := by
    rw [Prog.forEach, Prog.eval_bind, hqueued]
    dsimp only
    rw [Prog.forEach, Prog.eval_bind, hprogress, hactive]
    rfl
  rw [listQueuedJobs, Prog.eval_bind, hboth]
  rfl

/-- What is taken up are the queued jobs, stamped. -/
theorem mem_jobsOf_active : j ∈ gh.jobsOf owner repo (gh.active owner repo) ↔
    ∃ job, gh.Stamps owner repo job j := by
  constructor
  · intro hj
    obtain ⟨run, hrun, hj⟩ := List.mem_flatMap.mp hj
    obtain ⟨job, hjob, rfl⟩ := List.mem_map.mp hj
    obtain ⟨hmem, hqueued⟩ := List.mem_filter.mp hjob
    exact ⟨job, of_decide_eq_true hqueued, run, hrun, hmem, rfl⟩
  · rintro ⟨job, hqueued, run, hrun, hmem, rfl⟩
    have hfilter : job ∈ (gh.runJobs owner repo run.id).filter fun job => job.status = "queued" :=
      List.mem_filter.mpr ⟨hmem, decide_eq_true hqueued⟩
    exact List.mem_flatMap.mpr ⟨run, hrun, List.mem_map_of_mem hfilter⟩

/-! ## The listings -/

/-- **What is listed, once each.** Where no listing outruns the page
counter, `list_queued_jobs` returns the queued jobs of the runs under
both statuses, by increasing id, each with the repository of a run it is
in; and `list_runners` the runners with the prefix. -/
theorem listings_eq (gh : Served) (owner repo pre : String) (h : gh.Short owner repo) (fuel : ℕ)
    (hfuel : 2 ^ 32 ≤ fuel) :
    (∃ out, (listQueuedJobs fuel owner repo).eval gh.answer = .ok out ∧
      (out.Pairwise fun a b => a.id < b.id) ∧
      (∀ j ∈ out, ∃ job, gh.Stamps owner repo job j) ∧
      ∀ run ∈ gh.active owner repo, ∀ job ∈ gh.runJobs owner repo run.id,
        job.status = "queued" → ∃ j ∈ out, gh.Stamps owner repo job j) ∧
    (listRunners fuel owner repo pre).eval gh.answer =
      .ok ((gh.runners owner repo).filter fun r => r.name.startsWith pre) := by
  have hfrom : ∀ {j}, j ∈ dedupById (sortById (gh.jobsOf owner repo (gh.active owner repo))) →
      ∃ job, gh.Stamps owner repo job j := fun hj =>
    mem_jobsOf_active.mp (mem_sortById.mp (mem_of_mem_dedupById hj))
  refine ⟨⟨_, eval_listQueuedJobs h hfuel, dedupById_pairwise (sortById_pairwise _),
    fun j hj => hfrom hj, fun run hrun job hjob hqueued => ?_⟩, eval_listRunners h.runners hfuel⟩
  have hall : { job with repoId := run.repository } ∈
      gh.jobsOf owner repo (gh.active owner repo) :=
    mem_jobsOf_active.mpr ⟨job, hqueued, run, hrun, hjob, rfl⟩
  obtain ⟨b, hb, hid⟩ := exists_mem_dedupById (mem_sortById.mpr hall)
  obtain ⟨job', hqueued', run', hrun', hjob', rfl⟩ := hfrom hb
  -- what stands for the id is the same job, though perhaps of another run
  have hsame : job' = job := gh.oneJob owner repo run'.id run.id job' job hjob' hjob hid
  exact ⟨_, hb, hsame ▸ ⟨hqueued', run', hrun', hjob', rfl⟩⟩

/-! ## A listing that is too long -/

/-- Where the runners outrun the page counter, `list_runners` never
returns. -/
theorem listRunners_of_long (hlong : Served.reach ≤ (gh.runners owner repo).length) :
    (listRunners fuel owner repo pre).eval gh.answer = .error none :=
  Prog.eval_paged_of_long
    (g := fun (out body : List Runner) => out ++ body.filter fun r => r.name.startsWith pre)
    (fun _ => rfl) (fun _ _ _ => rfl) hlong fuel 1 []

/-- Where the queued runs outrun it, neither does `list_queued_jobs`. -/
theorem listQueuedJobs_of_long (hlong : Served.reach ≤ (gh.runs owner repo "queued").length)
    (hjobs : ∀ run ∈ gh.runs owner repo "queued",
      (gh.runJobs owner repo run.id).length < Served.reach)
    (hfuel : 2 ^ 32 ≤ fuel) : (listQueuedJobs fuel owner repo).eval gh.answer = .error none := by
  have hstuck : (takeStatus fuel owner repo [] "queued").eval gh.answer = .error none :=
    Prog.eval_paged_of_long (g := fun out body => out ++ gh.jobsOf owner repo body) (fun p => rfl)
      (fun s xs hxs => eval_takeRuns (fun run hrun => hjobs run (hxs run hrun)) hfuel s) hlong
      fuel 1 []
  rw [listQueuedJobs, Prog.eval_bind, Prog.forEach, Prog.eval_bind, hstuck]
  rfl

/-- A repository with as many queued runs, and as many runners, as the
counter can reach, and no jobs. -/
def crowded : Served where
  runs _ _ _ := (List.range Served.reach).map fun n => ⟨UInt64.ofNat n, 1⟩
  runJobs _ _ _ := []
  runners _ _ := (List.range Served.reach).map fun n => ⟨n, "gha-runner-", "online", false⟩
  oneJob _ _ _ _ _ _ h := nomatch h

/-- **Neither listing of it ever returns.** -/
theorem crowded_runs_on :
    (¬ ∃ n out, ∀ fuel ≥ n,
      (listQueuedJobs fuel "o" "r").eval crowded.answer = .ok out) ∧
    ¬ ∃ n out, ∀ fuel ≥ n,
      (listRunners fuel "o" "r" "gha-runner-").eval crowded.answer = .ok out := by
  have hruns : Served.reach ≤ (crowded.runs "o" "r" "queued").length := by
    rw [crowded, List.length_map, List.length_range]
  have hrunners : Served.reach ≤ (crowded.runners "o" "r").length := by
    rw [crowded, List.length_map, List.length_range]
  constructor
  · rintro ⟨n, out, h⟩
    have hlast := h (n + 2 ^ 32) (Nat.le_add_right _ _)
    rw [listQueuedJobs_of_long hruns (fun _ _ => (by decide : 0 < Served.reach)) (Nat.le_add_left _ _)] at hlast
    cases hlast
  · rintro ⟨n, out, h⟩
    have hlast := h n le_rfl
    rw [listRunners_of_long hrunners] at hlast
    cases hlast

/-- A repository with a run under both statuses. -/
def flipped : Served where
  runs _ _ _ := [⟨7, 1⟩]
  runJobs _ _ _ := [⟨12, "queued", 7, 1, "build", [], 0⟩, ⟨11, "completed", 7, 1, "lint", [], 0⟩]
  runners _ _ := [⟨1, "gha-runner-1", "online", false⟩, ⟨2, "other", "online", true⟩]
  oneJob := by
    intro _ _ _ _ a b ha hb h
    rcases List.mem_pair.mp ha with rfl | rfl <;> rcases List.mem_pair.mp hb with rfl | rfl
    · rfl
    · exact absurd h (by decide)
    · exact absurd h (by decide)
    · rfl

theorem listings_flipped :
    (∃ out, (listQueuedJobs (2 ^ 32) "o" "r").eval flipped.answer = .ok out ∧
      (out.Pairwise fun a b => a.id < b.id) ∧
      (∀ j ∈ out, ∃ job, flipped.Stamps "o" "r" job j) ∧
      ∀ run ∈ flipped.active "o" "r", ∀ job ∈ flipped.runJobs "o" "r" run.id,
        job.status = "queued" → ∃ j ∈ out, flipped.Stamps "o" "r" job j) ∧
    (listRunners (2 ^ 32) "o" "r" "gha-").eval flipped.answer =
      .ok ((flipped.runners "o" "r").filter fun r => r.name.startsWith "gha-") := by
  have hshort : flipped.Short "o" "r" :=
    ⟨by decide, by decide, fun _ _ => (by decide : 2 < Served.reach), by decide⟩
  exact listings_eq flipped "o" "r" "gha-" hshort (2 ^ 32) le_rfl

end Listing

end GitHub

end GhaConsumer

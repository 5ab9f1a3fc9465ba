import GhaConsumer.GitHub.Listing
import GhaConsumer.GitHub.Timing
import GhaConsumer.Runner.Model
import GhaConsumer.Settings

/-!
# GitHub — the check at startup

Before the supervisor is started `main` lists the runners of every allowed
repository, and its queued jobs where a feature needs them; an error ends
the daemon. There is a repository at least (`allowedRepos_ne_nil`), so a
daemon past the check knows its installation id (`known_of_selfCheck`).
-/

namespace GhaConsumer

namespace GitHub

open Interleave Alone

/-! ## Listings over `send_authed` -/

/-- How a listing's body is decoded. -/
structure Bodies where
  runs : String → Except Error (List Listing.WorkflowRun)
  runJobs : String → Except Error (List JobStatus)
  runners : String → Except Error (List Runner)

/-- The context of a page's request. -/
def Listing.Query.ctx : Listing.Query → String
  | .runs .. => "GET runs"
  | .runJobs .. => "GET run jobs"
  | .runners .. => "GET runners"

/-- A page's request. -/
def Listing.Query.request (api : String) : Listing.Query → Request
  | .runs owner repo status page =>
    ⟨"GET", s!"{api}/repos/{owner}/{repo}/actions/runs?status={status}&per_page=100&page={page}",
      none⟩
  | .runJobs owner repo run page =>
    ⟨"GET", s!"{api}/repos/{owner}/{repo}/actions/runs/{run}/jobs?per_page=100&page={page}", none⟩
  | .runners owner repo page =>
    ⟨"GET", s!"{api}/repos/{owner}/{repo}/actions/runners?per_page=100&page={page}", none⟩

/-- An answer with its body decoded. -/
def decoded {α : Type} (decode : String → Except Error α) : Answer String → Answer α
  | .error e => .error e
  | .ok resp => .ok ⟨resp.status, resp.text, resp.json >>= decode⟩

def Bodies.page (b : Bodies) : (q : Listing.Query) → Answer String → Listing.Page q
  | .runs .., a => decoded b.runs a
  | .runJobs .., a => decoded b.runJobs a
  | .runners .., a => decoded b.runners a

/-- One page, by `send_authed`. -/
def getPage (b : Bodies) (api : String) (appId : ℕ) (account : String) (q : Listing.Query) :
    Program (Listing.Page q) := do
  let answer ← sendAuthed appId account q.ctx (q.request api)
  pure (b.page q answer)

/-! ## The check -/

/-- A context on the error of a listing. -/
def checked {α : Type} (ctx : String) : Listing.Outcome α → Listing.Outcome Unit
  | .error none => .error none
  | .error (some e) => .error (some (ctx :: e))
  | .ok _ => .ok ()

/-- The check of one repository. -/
def checkRepo (cfg : Config) (fuel : ℕ) (_ : Unit) (repo : String) :
    Listing.Requests (Listing.Outcome Unit) :=
  match splitOnce repo with
  | none =>
    pure (.error (some [s!"GH_ALLOWED_REPOS entry {cfg.codec.debugStr repo} is not owner/name"]))
  | some (owner, name) => do
    match checked s!"startup self-check: listing runners on {repo}"
      (← Listing.listRunners fuel owner name "gha-") with
    | .error e => pure (.error e)
    | .ok () =>
      if cfg.reconcileEnabled || cfg.jobCompletionCheck then do
        pure (checked (s!"startup self-check: listing queued jobs on {repo} " ++
          "(RECONCILE_ENABLED / JOB_COMPLETION_CHECK require the App's `Actions: read` permission)")
          (← Listing.listQueuedJobs fuel owner name))
      else pure (.ok ())

/-- The startup self-check of `main`. -/
def selfCheck (b : Bodies) (api : String) (appId : ℕ) (account : String) (cfg : Config)
    (fuel : ℕ) : Program (Listing.Outcome Unit) :=
  (Prog.forEach (checkRepo cfg fuel) cfg.allowedRepos ()).lower (getPage b api appId account)

/-! ## What it leaves -/

variable {timeout line fuel appId : ℕ} {b : Bodies} {api account : String} {cfg : Config}
variable {q : Listing.Query} {page : Listing.Page q} {w w' : World}

/-- A page got by the clock. -/
abbrev pageStep (timeout line : ℕ) (b : Bodies) (api : String) (appId : ℕ) (account : String) :
    Alone.Step Listing.Page World := fun q w page w' =>
  Ends (timedStep timeout line) (getPage b api appId account q) w page w'

/-- An id known stays known. -/
theorem known_of_page (h : pageStep timeout line b api appId account q w page w')
    (hk : w.Known) : w'.Known := by
  obtain ⟨a, w₁, ha, -, rfl⟩ := ends_bind.mp h
  exact (sendAuthed_known.ends hk ha).2

/-- Where a page of runners is got, the id is known. -/
theorem known_of_runners {owner repo : String} {n : UInt32} {resp : Response (List Runner)}
    (h : pageStep timeout line b api appId account (.runners owner repo n) w (.ok resp) w') :
    w'.Known := by
  obtain ⟨a, w₁, ha, hpage, rfl⟩ := ends_bind.mp h
  refine (sendAuthed_cold.ends trivial ha).2 ?_
  cases a with
  | error e => cases hpage
  | ok resp' => rfl

/-- What is asked of pages leaves an id known. -/
theorem known_of_requests {α : Type} {p : Listing.Requests α} {a : α}
    (h : Ends (pageStep timeout line b api appId account) p w a w') (hk : w.Known) : w'.Known :=
  h.only p.only_true (fun _ _ _ _ _ hs => known_of_page hs) hk

/-- A listing of runners that comes to its end has got a page. -/
theorem known_of_listRunners {owner repo pre : String} {runners : List Runner}
    (h : Ends (pageStep timeout line b api appId account)
      (Listing.listRunners fuel owner repo pre) w (.ok runners) w') : w'.Known := by
  cases fuel with
  | zero =>
    obtain ⟨hout, -⟩ := h
    cases hout
  | succ fuel =>
    obtain ⟨body, w₁, hbody, hrest⟩ := ends_bind.mp h
    obtain ⟨page, w₂, hpage, hof, rfl⟩ := ends_step.mp hbody
    cases page with
    | error e =>
      -- no page, and the listing fails
      subst hof
      cases hrest.1
    | ok resp =>
      exact known_of_requests hrest (known_of_runners hpage)

theorem known_of_checkRepo {repo : String} (h : Ends (pageStep timeout line b api appId account)
    (checkRepo cfg fuel () repo) w (.ok ()) w') : w'.Known := by
  unfold checkRepo at h
  split at h
  · cases h.1
  · obtain ⟨runners, w₁, hrunners, hrest⟩ := ends_bind.mp h
    rcases runners with (_ | e) | runners
    · cases hrest.1
    · cases hrest.1
    · exact known_of_requests hrest (known_of_listRunners hrunners)

/-- **Past the check the installation id is known.** -/
theorem known_of_selfCheck (hrepos : cfg.allowedRepos ≠ [])
    (h : Ends (timedStep timeout line) (selfCheck b api appId account cfg fuel) w (.ok ()) w') :
    w'.Known := by
  have h := ends_lower.mp h
  cases hr : cfg.allowedRepos with
  | nil => exact absurd hr hrepos
  | cons repo repos =>
    rw [hr] at h
    obtain ⟨r, w₁, hrepo, hrest⟩ := ends_bind.mp h
    cases r with
    | error e => cases hrest.1
    | ok => exact known_of_requests hrest (known_of_checkRepo hrepo)

/-- A daemon past its check: the check went through from an installation
of which nothing was known, and since then its other callers have been. -/
def Started (cfg : Config) (g : World) : Prop :=
  ∃ (b : Bodies) (api account : String) (appId fuel line d : ℕ) (w w' : World),
    w.cell = .empty ∧
    Ends (timedStep (1000000000 * cfg.apiTimeoutSecs.toNat) line)
      (selfCheck b api appId account cfg fuel) w (.ok ()) w' ∧
    Passes d w' g

theorem Started.known {g : World} (h : Started cfg g) (hrepos : cfg.allowedRepos ≠ []) :
    g.Known := by
  obtain ⟨b, api, account, appId, fuel, line, d, w, w', -, hcheck, hpass⟩ := h
  obtain ⟨id, hid⟩ := known_of_selfCheck hrepos hcheck
  exact ⟨id, hpass.known id hid⟩

end GitHub

end GhaConsumer

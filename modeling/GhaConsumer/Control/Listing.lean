import GhaConsumer.Control.Model
import GhaConsumer.Host.Sample
import GhaConsumer.Host.Scan
import GhaConsumer.Intake.Verdict
import GhaConsumer.Spool.Read

/-!
# Control — the queued list

The listing of `new/` only looks, and `prepare` claims; but at rest they
come to the same. What `prepare` returns is a matter of the tree it finds
(`prepareOn`), and so is what the listing makes of an entry (`rowOn`); the
two agree name by name (`rowOn_agrees`), and the listing goes through every
name once (`list_active_shows_runnable`).
-/

namespace GhaConsumer

namespace Listing

open Interleave Alone

variable {cfg : Config} {name : String} {t : Files.Tree Path} {w w' : World}
variable {nowMs : ℕ} {snapshot : VmSnapshot}

/-! ## What `prepare` returns -/

/-- `prepare`, by what it finds. -/
def prepareOn (cfg : Config) (name : String) (t : Files.Tree Path) : Prepared :=
  match parseSpoolFilename name with
  | none => .skip
  | some id =>
    if archived name t || (t.ino ⟨.new, name⟩).isNone || (t.ino (curPath name)).isSome then .skip
    else if name ≠ jobFileName id then
      .reject name (s!"non-canonical filename {cfg.codec.debugStr (sanitizeForLog name)} " ++
        s!"for id {id} (expected {jobFileName id})")
    else match readResult cfg.codec ⟨.new, name⟩ t with
      | .error e => .reject name s!"read/parse spool file: {e}"
      | .ok (env, body) =>
        .ofVerdict name (classifyValidatedEntry cfg.codec id env body cfg.webhookSecret
          cfg.allowedRepos cfg.runnerLabel cfg.runnerLabels)

theorem prepare_alone {r : Prepared} (h : Ends (hostStep cfg.codec Faultless) (prepare cfg name) w r w') :
    r = prepareOn cfg name w.fs.tree := by
  unfold prepare at h
  unfold prepareOn
  cases hid : parseSpoolFilename name with
  | none =>
    rw [hid] at h
    exact h.1
  | some id =>
    rw [hid] at h
    obtain ⟨claim, w₁, h₁, h⟩ := ends_bind.mp h
    have hclaim := tryClaim_alone h₁
    split at hclaim
    · rename_i hskip
      subst hclaim
      simp only [if_pos hskip]
      exact h.1
    · rename_i hskip
      obtain ⟨rfl, hc⟩ := hclaim
      simp only [if_neg hskip]
      unfold prepareClaim at h
      dsimp only at h
      split at h
      · rename_i hname
        rw [if_pos hname]
        exact h.1
      · rename_i hname
        rw [if_neg hname]
        obtain ⟨e, w₂, h₂, h⟩ := ends_bind.mp h
        obtain ⟨rfl, n, rfl⟩ := (looks_readSpoolFileAt (curPath name)).ends h₂
        -- the claim reads as the entry did
        have hread : readResult cfg.codec (curPath name) w₁.fs.tree
            = readResult cfg.codec ⟨.new, name⟩ w.fs.tree := readResult_congr rfl hc
        rw [hread] at h
        cases hr : readResult cfg.codec ⟨.new, name⟩ w.fs.tree with
        | error e =>
          rw [hr] at h
          exact h.1
        | ok eb =>
          rw [hr] at h
          exact h.1

theorem readSpoolFile_answers (C : Codec) (cur : String) :
    (readSpoolFile C cur).Only Op.answers :=
  (readSpoolFileAt_only C _).mono fun o ho => by
    unfold Op.reads at ho
    split at ho <;> trivial

theorem tryClaim_answers (name : String) : (tryClaim name).Only Op.answers := by
  refine (tryClaim_only name).mono fun o ho => ?_
  cases o with
  | fs o =>
    cases o with
    | nextEntry => exact ho.elim
    | _ => trivial
  | _ => exact ho.elim

theorem prepare_answers (cfg : Config) (name : String) : (prepare cfg name).Only Op.answers := by
  unfold prepare
  split
  · trivial
  · refine (tryClaim_answers name).bind fun r => ?_
    split
    · unfold prepareClaim
      split
      · trivial
      · refine (readSpoolFile_answers cfg.codec _).bind fun r => ?_
        split <;> trivial
    · trivial

/-- With no failure, `prepare` returns. -/
theorem prepare_ends (cfg : Config) (name : String) (w : World) :
    ∃ r w', Ends (hostStep cfg.codec Faultless) (prepare cfg name) w r w' :=
  exists_ends (prepare_answers cfg name) (fun _ w ho => exists_host ho w) w

/-! ## What the listing shows -/

/-- There is a claim or a marker. -/
def occupied (name : String) (t : Files.Tree Path) : Bool :=
  t.leads (curPath name) || archived name t

theorem looks_alreadyClaimedOrArchived :
    Looks cfg.codec (alreadyClaimedOrArchived name) (occupied name) := by
  refine (looks_tryExists.bind (b := fun r t => r || archived name t) fun r => ?_).congr
    fun t => rfl
  cases r
  · refine (looks_tryExists.bind (b := fun r t => r || t.leads ⟨.error, name⟩)
      fun r => ?_).congr fun t => rfl
    cases r
    · exact looks_tryExists.congr fun t => rfl
    · exact Looks.ret true
  · exact Looks.ret true

/-- The row of an entry read, if it is shown. -/
def queuedOn (cfg : Config) (nowMs : ℕ) (name : String) (id : JobId) (mtimeMs : Option ℕ)
    (env : Envelope) (body : Files.Bytes) (t : Files.Tree Path) : Option JobSummary :=
  if name ≠ jobFileName id then none
  else match classifyValidatedEntry cfg.codec id env body cfg.webhookSecret cfg.allowedRepos
      cfg.runnerLabel cfg.runnerLabels with
    | .run event => if occupied name t then none else some (queuedRow id env event nowMs mtimeMs)
    | _ => none

theorem looks_listQueued {id : JobId} {mtimeMs : Option ℕ} {env : Envelope} {body : Files.Bytes} :
    Looks cfg.codec (listQueued cfg nowMs name id mtimeMs env body)
      (queuedOn cfg nowMs name id mtimeMs env body) := by
  unfold listQueued queuedOn
  split
  · exact Looks.ret _
  · cases classifyValidatedEntry cfg.codec id env body cfg.webhookSecret cfg.allowedRepos
      cfg.runnerLabel cfg.runnerLabels with
    | run event =>
      refine (looks_alreadyClaimedOrArchived.bind (b := fun r _ => if r then none
        else some (queuedRow id env event nowMs mtimeMs)) fun r => ?_).congr fun t => rfl
      cases r <;> exact Looks.ret _
    | drop | reject => exact Looks.ret _

/-- The modification time of an entry. -/
def mtimeOn (p : Path) (t : Files.Tree Path) : Option ℕ :=
  (t.ino p).map fun i => msSinceEpoch (t.node i).mtime

/-- The listing of an entry of `new/`, by what it finds. -/
def rowOn (cfg : Config) (nowMs : ℕ) (name : String) (t : Files.Tree Path) : Option JobSummary :=
  match parseSpoolFilename name with
  | none => none
  | some id =>
    match readResult cfg.codec ⟨.new, name⟩ t with
    | .error _ => none
    | .ok (env, body) => queuedOn cfg nowMs name id (mtimeOn ⟨.new, name⟩ t) env body t

theorem looks_listEntry :
    Looks cfg.codec (listEntry cfg .queued nowMs snapshot name) (rowOn cfg nowMs name) := by
  unfold listEntry rowOn
  cases parseSpoolFilename name with
  | none => exact Looks.ret _
  | some id =>
    refine (looks_lstat.bind (b := fun md t => match readResult cfg.codec ⟨.new, name⟩ t with
      | .error _ => none
      | .ok (env, body) => queuedOn cfg nowMs name id (mtimeMs md) env body t)
      fun md => ?_).congr fun t => ?_
    · refine ((looks_readSpoolFileAt ⟨.new, name⟩).bind (b := fun r t => match r with
        | .error _ => none
        | .ok (env, body) => queuedOn cfg nowMs name id (mtimeMs md) env body t)
        fun r => ?_).congr fun t => rfl
      rcases r with e | ⟨env, body⟩
      · exact Looks.ret _
      · exact looks_listQueued
    · show _ = match readResult cfg.codec ⟨.new, name⟩ t with
        | .error _ => none
        | .ok (env, body) => queuedOn cfg nowMs name id (mtimeOn ⟨.new, name⟩ t) env body t
      unfold mtimeOn
      simp only [Bucket.dir]
      cases t.ino ⟨.new, name⟩ <;> rfl

/-! ## The two agree -/

/-- The row shows the event, sanitized. -/
structure Shows (row : JobSummary) (event : WorkflowJob) : Prop where
  id : row.id = toString event.workflowJob.id
  repo : row.repo = sanitizeForLog event.repository.fullName
  name : row.name = some (sanitizeForLog event.workflowJob.name)
  labels : row.labels = event.workflowJob.labels.map sanitizeForLog
  runId : row.runId = some (toString event.workflowJob.runId)

/-- A row is there for a prepared entry that would run, and shows its
event. -/
def Agrees (row : Option JobSummary) : Prepared → Prop
  | .run _ event => ∃ s, row = some s ∧ Shows s event
  | _ => row = none

/-- An entry that is not claimed is not shown. -/
theorem rowOn_of_skip (hreg : t.Plain) (h : (archived name t || (t.ino ⟨.new, name⟩).isNone ||
    (t.ino (curPath name)).isSome) = true) : rowOn cfg nowMs name t = none := by
  unfold rowOn
  cases parseSpoolFilename name with
  | none => rfl
  | some id =>
    dsimp only
    cases hnew : t.ino ⟨.new, name⟩ with
    | none => simp only [readResult_of_none hnew]
    | some i =>
      have hocc : occupied name t = true := by
        rw [hnew] at h
        rw [occupied, hreg.leads]
        revert h
        cases archived name t <;> cases (t.ino (curPath name)).isSome <;> simp
      split
      · rfl
      · simp only [queuedOn, hocc, if_true]
        split
        · rfl
        · split <;> rfl

/-- **The listing agrees with `prepare`**, name by name. -/
theorem rowOn_agrees (cfg : Config) (nowMs : ℕ) (name : String) (hreg : t.Plain) :
    Agrees (rowOn cfg nowMs name t) (prepareOn cfg name t) := by
  unfold prepareOn
  cases hid : parseSpoolFilename name with
  | none =>
    show rowOn cfg nowMs name t = none
    simp only [rowOn, hid]
  | some id =>
    dsimp only
    split
    · rename_i hskip
      exact rowOn_of_skip hreg hskip
    · rename_i hskip
      have hocc : occupied name t = false := by
        rw [occupied, hreg.leads]
        revert hskip
        cases archived name t <;> cases (t.ino (curPath name)).isSome <;> simp
      simp only [rowOn, hid]
      by_cases hname : name = jobFileName id
      · rw [if_neg (not_not.mpr hname)]
        cases hr : readResult cfg.codec ⟨.new, name⟩ t with
        | error e => rfl
        | ok eb =>
          obtain ⟨env, body⟩ := eb
          simp only [queuedOn, if_neg (not_not.mpr hname), hocc]
          cases hv : classifyValidatedEntry cfg.codec id env body cfg.webhookSecret
              cfg.allowedRepos cfg.runnerLabel cfg.runnerLabels with
          | run event =>
            -- the id of the name is the id of the event
            obtain ⟨hval, -, -, hcross, -, -⟩ := classify_eq_run.mp hv
            have hjob : event.workflowJob.id = id :=
              (crossCheck_eq_none.mp hcross).2.2.1.trans (validateEnvelope_eq_none.mp hval).2.2.1
            exact ⟨_, rfl, by rw [hjob]; rfl, rfl, rfl, rfl, rfl⟩
          | drop reason => rfl
          | reject reason => rfl
      · rw [if_pos hname]
        show _ = none
        split
        · rfl
        · exact if_pos hname

/-! ## The whole listing -/

/-- The names in `new/`. -/
def names (w : World) : List String := (w.fs.list .new).map (·.name)

/-- The loop goes through the names to come, once each. -/
theorem listEntries_rows {seen : List String} {s s' : World} {left : ℕ} {rows out : List JobSummary}
    {truncated : Bool} (hcap : (names w).length ≤ seen.length + left) (hsc : ReadUpTo w .new seen s)
    (h : Ends (hostStep cfg.codec Faultless) (listEntries cfg .queued nowMs snapshot left rows) s
      (out, truncated) s') :
    ∃ more, (seen ++ more).Perm (names w) ∧
      out = rows ++ more.filterMap fun name => rowOn cfg nowMs name w.fs.tree := by
  induction left generalizing seen s rows with
  | zero =>
    obtain ⟨heq, rfl⟩ := h
    cases heq
    refine ⟨[], ?_, by simp⟩
    -- the cap is no less than the names there are
    obtain ⟨sc, -, hperm, -⟩ := hsc.rest
    have hperm : (seen ++ sc.offered.map (·.name)).Perm (names w) := hperm
    have hlen := hperm.length_eq
    rw [List.length_append, List.length_map] at hlen
    have hoff : sc.offered = [] := List.eq_nil_of_length_eq_zero (by omega)
    rw [hoff, List.map_nil] at hperm
    exact hperm
  | succ left ih =>
    obtain ⟨r, s₁, h₁, h⟩ := ends_step.mp h
    rcases hsc.nextEntry (fun _ hq => hq) h₁ with ⟨rfl, hperm, -⟩ | ⟨e, rfl, -, hsc₁⟩
    · obtain ⟨heq, rfl⟩ := h
      cases heq
      exact ⟨[], by rwa [List.append_nil], by simp⟩
    · obtain ⟨row, s₂, h₂, h⟩ := ends_bind.mp h
      obtain ⟨rfl, n, rfl⟩ := looks_listEntry.ends h₂
      obtain ⟨more, hperm, rfl⟩ := ih (by rw [List.length_append]; simp only [List.length_singleton]; omega)
        (hsc₁.later n) h
      refine ⟨e.name :: more, by simpa using hperm, ?_⟩
      rw [hsc₁.tree, List.append_assoc, List.filterMap_cons]
      cases rowOn cfg nowMs e.name w.fs.tree <;> rfl

/-- **The queued list is what would run.** On regular files at rest, with
no failure and no more entries in `new/` than the cap, the listing has a
row for each name there that `prepare` would run, and for no other; and
the row shows the event that would run. -/
theorem list_active_shows_runnable {rows : List JobSummary} {truncated : Bool}
    (hreg : w.fs.tree.Plain) (hcap : (w.fs.list .new).length ≤ activeCap)
    (h : Ends (hostStep cfg.codec Faultless) (listActive cfg .queued nowMs snapshot) w
      (rows, truncated) w') :
    ∃ row : String → Option JobSummary, rows.Perm ((names w).filterMap row) ∧
      ∀ name, ∃ r, (∃ w₁, Ends (hostStep cfg.codec Faultless) (prepare cfg name) w r w₁) ∧
        (∀ r' w₁, Ends (hostStep cfg.codec Faultless) (prepare cfg name) w r' w₁ → r' = r) ∧
        Agrees (row name) r ∧ ((row name).isSome → name ∈ names w) := by
  refine ⟨fun name => rowOn cfg nowMs name w.fs.tree, ?_, fun name => ?_⟩
  · obtain ⟨r, s₁, h₁, h⟩ := ends_step.mp h
    obtain ⟨rfl, hsc⟩ := readUpTo_openDir (fun _ hq => hq) rfl h₁
    obtain ⟨more, hperm, rfl⟩ := listEntries_rows (by simpa [names] using hcap) hsc h
    exact (hperm.filterMap _)
  · obtain ⟨r, w₁, hends⟩ := prepare_ends cfg name w
    have hr := prepare_alone hends
    refine ⟨r, ⟨w₁, hends⟩, fun r' w₂ h' => (prepare_alone h').trans hr.symm, ?_, fun hsome => ?_⟩
    · rw [hr]
      exact rowOn_agrees cfg nowMs name hreg
    · by_contra hmem
      have hnone : w.fs.tree.ino ⟨.new, name⟩ = none := by
        by_contra hino
        obtain ⟨i, hi⟩ := Option.ne_none_iff_exists'.mp hino
        exact hmem (List.mem_map.mpr ⟨⟨name, _⟩, Files.mem_list.mpr ⟨i, hi, rfl⟩, rfl⟩)
      have hrow : rowOn cfg nowMs name w.fs.tree = none := rowOn_of_skip hreg (by simp [hnone])
      simp only [hrow, Option.isSome_none, Bool.false_eq_true] at hsome

/-! ## One listing -/

/-- Two deliveries: one that runs, and one of an id that is archived. -/
def sampleWorld : World := .sample [(⟨.new, "42.job"⟩, ⟨.regular, [10], 0⟩),
  (⟨.new, "7.job"⟩, ⟨.regular, [10], 0⟩), (⟨.done, "7.job"⟩, ⟨.regular, [], 0⟩)] 9000000000

theorem sample_plain : sampleWorld.fs.tree.Plain := by
  intro p i h
  have hlt : ∀ n : ℕ, n < 3 → n = 0 ∨ n = 1 ∨ n = 2 := by omega
  obtain rfl | rfl | rfl := hlt i (sampleWorld.fs.tree.old p i h)
  · rfl
  · rfl
  · rfl

/-- The first is listed, and the other is not. -/
theorem list_active_shows_one :
    ∃ rows truncated w', Ends (hostStep sampleConfig.codec Faultless)
        (listActive sampleConfig .queued 9000 ⟨0, []⟩) sampleWorld (rows, truncated) w' ∧
      rows.map (·.id) = ["42"] ∧
      ∃ row : String → Option JobSummary, rows.Perm ((names sampleWorld).filterMap row) := by
  have h : (run sampleExec (listActive sampleConfig .queued 9000 ⟨0, []⟩) sampleWorld).map
      (fun x => x.1.1.map (·.id)) = some ["42"] := by decide +kernel
  obtain ⟨⟨⟨rows, truncated⟩, w'⟩, hrun, hids⟩ := Option.map_eq_some_iff.mp h
  have hends := ends_of_run hostStep_of_exec hrun
  obtain ⟨row, hperm, -⟩ :=
    @list_active_shows_runnable sampleConfig _ _ _ _ _ _ sample_plain (by decide) hends
  exact ⟨rows, truncated, w', hends, hids, row, hperm⟩

end Listing

end GhaConsumer

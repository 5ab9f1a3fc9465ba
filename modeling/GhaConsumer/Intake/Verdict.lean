import GhaConsumer.Intake.Model

/-!
# Intake — which entries run

Each group of checks refuses exactly what it should (`validateEnvelope_eq_none`,
`crossCheck_eq_none`, `classifyJobLabels_eq_accept`), and an entry runs
when none refuses it. The envelope is not signed, the body is; since the
event that runs is the decoded body, what the envelope says decides
whether a job runs, never which.
-/

namespace GhaConsumer

open Files (Bytes)

variable {C : Codec} {env : Envelope} {body secret : Bytes} {allowedRepos : List String}
variable {id : JobId} {event : WorkflowJob} {labels runnerLabels : List String}
variable {runnerLabel : String}

theorem schema_ok {s : UInt32} : (1 ≤ s && s ≤ 2) = true ↔ s = 1 ∨ s = 2 := by
  rw [Bool.and_eq_true, decide_eq_true_iff, decide_eq_true_iff, UInt32.le_iff_toNat_le,
    UInt32.le_iff_toNat_le, ← UInt32.toNat_inj, ← UInt32.toNat_inj]
  have h₁ : (1 : UInt32).toNat = 1 := rfl
  have h₂ : (2 : UInt32).toNat = 2 := rfl
  omega

/-- The signature holds when the header spells the HMAC of the body. -/
theorem verifySignature_eq_true {sig : String} :
    verifySignature C sig body secret = true ↔
      parseSignature sig = some (C.hmacSha256 secret body) := by
  unfold verifySignature
  split
  · rename_i h
    rw [h]
    exact ⟨nofun, nofun⟩
  · rename_i expected h
    rw [h, beq_iff_eq, Option.some.injEq, eq_comm]

/-- What `validate_envelope` lets pass. -/
theorem validateEnvelope_eq_none :
    validateEnvelope C env body secret allowedRepos id = none ↔
      (env.schema = 1 ∨ env.schema = 2) ∧ verifySignature C env.signature body secret = true ∧
        env.workflowJobId = id ∧ env.repo ∈ allowedRepos := by
  rw [← schema_ok]
  unfold validateEnvelope
  generalize (1 ≤ env.schema && env.schema ≤ 2) = schemaOk
  split
  · simp_all
  · split
    · simp_all
    · split
      · simp_all
      · split <;> simp_all

/-- What the body and the envelope agree on. -/
theorem crossCheck_eq_none :
    crossCheck env event = none ↔
      event.repository.id = env.repoId ∧ event.repository.fullName = env.repo ∧
        event.workflowJob.id = env.workflowJobId ∧ event.action = env.action := by
  unfold crossCheck
  split
  · simp_all
  · split
    · simp_all
    · split
      · simp_all
      · split <;> simp_all

theorem classifyJobLabels_eq_accept :
    classifyJobLabels C labels runnerLabel runnerLabels = .accept ↔
      (∃ l ∈ labels, eqIgnoreAsciiCase l runnerLabel = true) ∧
        ∀ l ∈ labels, ∃ a ∈ runnerLabels, eqIgnoreAsciiCase a l = true := by
  unfold classifyJobLabels
  split
  · rename_i hgate
    have hnone : ¬ ∃ l ∈ labels, eqIgnoreAsciiCase l runnerLabel = true := by
      simpa using hgate
    exact ⟨nofun, fun h => (hnone h.1).elim⟩
  · rename_i hgate
    have hgate : ∃ l ∈ labels, eqIgnoreAsciiCase l runnerLabel = true := by simpa using hgate
    split
    · rename_i unknown hfind
      have hmem := List.mem_of_find?_eq_some hfind
      have hnot := List.find?_some hfind
      refine ⟨nofun, fun h => ?_⟩
      obtain ⟨a, ha, heq⟩ := h.2 unknown hmem
      rw [Bool.not_eq_true', List.any_eq_false] at hnot
      exact (hnot a ha heq).elim
    · rename_i hfind
      have hall : ∀ l ∈ labels, ∃ a ∈ runnerLabels, eqIgnoreAsciiCase a l = true := by
        simpa using hfind
      exact ⟨fun _ => ⟨hgate, hall⟩, fun _ => rfl⟩

/-- An entry runs when every check passes. -/
theorem classify_eq_run :
    classifyValidatedEntry C id env body secret allowedRepos runnerLabel runnerLabels
        = .run event ↔
      validateEnvelope C env body secret allowedRepos id = none ∧ env.event = "workflow_job" ∧
        C.decodeJob body = .ok event ∧ crossCheck env event = none ∧ event.action = "queued" ∧
        classifyJobLabels C event.workflowJob.labels runnerLabel runnerLabels = .accept := by
  constructor
  · intro h
    unfold classifyValidatedEntry at h
    split at h
    · cases h
    · rename_i hval
      split at h
      · cases h
      · rename_i hev
        split at h
        · cases h
        · rename_i decoded hdec
          split at h
          · cases h
          · rename_i hcross
            split at h
            · cases h
            · rename_i hact
              split at h
              · rename_i hlab
                cases h
                exact ⟨hval, not_not.mp hev, hdec, hcross, not_not.mp hact, hlab⟩
              · cases h
  · rintro ⟨hval, hev, hdec, hcross, hact, hlab⟩
    simp only [classifyValidatedEntry, hval, hev, hdec, hcross, hact, hlab, ne_eq,
      not_true_eq_false, if_false]

/-- **The trust boundary.** An entry runs an event exactly when its
envelope has a known schema, a signature over these very body bytes, the
file's id, an allowed repository and the right event, the body decodes to
the event, every field the two share agrees, the action is `queued`, the
gate label is asked for and no unadvertised one is. So the VM is named
after the file's id, and whatever else an envelope, a file name or a
policy says of the same bytes, the event that runs is the same. -/
theorem classifyValidatedEntry_run_iff :
    (classifyValidatedEntry C id env body secret allowedRepos runnerLabel runnerLabels
        = .run event ↔
      (env.schema = 1 ∨ env.schema = 2) ∧
        verifySignature C env.signature body secret = true ∧
        env.workflowJobId = id ∧ env.repo ∈ allowedRepos ∧ env.event = "workflow_job" ∧
        C.decodeJob body = .ok event ∧
        event.repository.id = env.repoId ∧ event.repository.fullName = env.repo ∧
        event.workflowJob.id = env.workflowJobId ∧ event.action = env.action ∧
        event.action = "queued" ∧
        (∃ l ∈ event.workflowJob.labels, eqIgnoreAsciiCase l runnerLabel = true) ∧
        ∀ l ∈ event.workflowJob.labels, ∃ a ∈ runnerLabels, eqIgnoreAsciiCase a l = true) ∧
    (classifyValidatedEntry C id env body secret allowedRepos runnerLabel runnerLabels
        = .run event →
      parseSignature env.signature = some (C.hmacSha256 secret body) ∧
        vmNameForEvent event = vmName id ∧ event.repository.fullName ∈ allowedRepos ∧
        ∀ id' env' secret' allowedRepos' runnerLabel' runnerLabels' event',
          classifyValidatedEntry C id' env' body secret' allowedRepos' runnerLabel' runnerLabels'
            = .run event' → event' = event) := by
  have hiff : classifyValidatedEntry C id env body secret allowedRepos runnerLabel runnerLabels
      = .run event ↔ _ := classify_eq_run
  rw [validateEnvelope_eq_none, crossCheck_eq_none, classifyJobLabels_eq_accept] at hiff
  refine ⟨by rw [hiff]; tauto, fun h => ?_⟩
  obtain ⟨⟨-, hsig, hid, hrepo⟩, -, hdec, ⟨-, hname, hjob, -⟩, -, -⟩ := hiff.mp h
  refine ⟨verifySignature_eq_true.mp hsig, ?_, hname ▸ hrepo, ?_⟩
  · rw [vmNameForEvent, hjob, hid]
  · intro id' env' secret' allowedRepos' runnerLabel' runnerLabels' event' h'
    have hdec' := (classify_eq_run.mp h').2.2.1
    rw [hdec] at hdec'
    exact (Except.ok.inj hdec').symm

end GhaConsumer

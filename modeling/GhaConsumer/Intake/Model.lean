import GhaConsumer.Data

/-!
# Intake — the model

Which spool entries become jobs: the checks of `classify_validated_entry`
over an envelope and the webhook body it comes with, in the source's
order.
-/

namespace GhaConsumer

open Files (Bytes)

/-! ## The signature -/

/-- The value of a hex digit of either case. -/
def hexVal (c : Char) : Option ℕ :=
  if '0' ≤ c ∧ c ≤ '9' then some (c.toNat - '0'.toNat)
  else if 'a' ≤ c ∧ c ≤ 'f' then some (c.toNat - 'a'.toNat + 10)
  else if 'A' ≤ c ∧ c ≤ 'F' then some (c.toNat - 'A'.toNat + 10)
  else none

/-- `hex::decode`. -/
def hexDecode : List Char → Option Bytes
  | [] => some []
  | [_] => none
  | a :: b :: cs => do
    let hi ← hexVal a
    let lo ← hexVal b
    let rest ← hexDecode cs
    pure (UInt8.ofNat (16 * hi + lo) :: rest)

/-- The bytes of a `sha256=<hex>` header, if it holds the 32 of a digest. -/
def parseSignature (sigHeader : String) : Option Bytes := do
  let hexSig ← List.isPrefixOf? "sha256=".toList sigHeader.toList
  let expected ← hexDecode hexSig
  if expected.length = 32 then some expected else none

/-- `verify_signature`. -/
def verifySignature (C : Codec) (sigHeader : String) (body secret : Bytes) : Bool :=
  match parseSignature sigHeader with
  | none => false
  | some expected => C.hmacSha256 secret body == expected

/-! ## The checks -/

/-- `str::eq_ignore_ascii_case`. -/
def eqIgnoreAsciiCase (a b : String) : Bool :=
  a.toList.map Char.toLower == b.toList.map Char.toLower

inductive LabelVerdict where
  | accept
  | reject (reason : String)
  deriving DecidableEq, Repr

/-- `classify_job_labels`. -/
def classifyJobLabels (C : Codec) (labels : List String) (runnerLabel : String)
    (runnerLabels : List String) : LabelVerdict :=
  if !labels.any fun l => eqIgnoreAsciiCase l runnerLabel then
    .reject s!"labels {C.debugList labels} do not include {runnerLabel}"
  else match labels.find? fun l => !runnerLabels.any fun a => eqIgnoreAsciiCase a l with
    | some unknown => .reject s!"label {C.debugStr unknown} not in advertised set"
    | none => .accept

/-- `validate_envelope`: the reason to refuse, if any. -/
def validateEnvelope (C : Codec) (env : Envelope) (body secret : Bytes)
    (allowedRepos : List String) (filenameJobId : JobId) : Option String :=
  if !(1 ≤ env.schema && env.schema ≤ 2) then
    some s!"schema={env.schema} (expected 1 or 2)"
  else if !verifySignature C env.signature body secret then
    some "hmac signature mismatch"
  else if env.workflowJobId ≠ filenameJobId then
    some (s!"filename workflow_job_id {filenameJobId} != " ++
      s!"envelope.workflow_job_id {env.workflowJobId}")
  else if !allowedRepos.contains env.repo then
    some s!"repo {env.repo} not in allowlist"
  else none

inductive EntryVerdict where
  | run (event : WorkflowJob)
  | drop (reason : String)
  | reject (reason : String)
  deriving DecidableEq, Repr

/-- The cross-checks of the decoded body against its envelope: the reason
to refuse, if any. -/
def crossCheck (env : Envelope) (event : WorkflowJob) : Option String :=
  if event.repository.id ≠ env.repoId then
    some s!"envelope.repo_id={env.repoId} != body.repository.id={event.repository.id}"
  else if event.repository.fullName ≠ env.repo then
    some s!"envelope.repo={env.repo} != body.repository.full_name={event.repository.fullName}"
  else if event.workflowJob.id ≠ env.workflowJobId then
    some (s!"envelope.workflow_job_id={env.workflowJobId} != " ++
      s!"body.workflow_job.id={event.workflowJob.id}")
  else if event.action ≠ env.action then
    some s!"envelope.action={env.action} != body.action={event.action}"
  else none

/-- `classify_validated_entry`. -/
def classifyValidatedEntry (C : Codec) (filenameJobId : JobId) (env : Envelope)
    (bodyBytes secret : Bytes) (allowedRepos : List String) (runnerLabel : String)
    (runnerLabels : List String) : EntryVerdict :=
  match validateEnvelope C env bodyBytes secret allowedRepos filenameJobId with
  | some reason => .reject reason
  | none =>
    if env.event ≠ "workflow_job" then .drop s!"event={env.event}"
    else match C.decodeJob bodyBytes with
      | .error e => .reject s!"workflow_job decode: {e}"
      | .ok event =>
        match crossCheck env event with
        | some reason => .reject reason
        | none =>
          if event.action ≠ "queued" then .drop s!"action={event.action}"
          else match classifyJobLabels C event.workflowJob.labels runnerLabel runnerLabels with
            | .accept => .run event
            | .reject reason => .drop reason

end GhaConsumer

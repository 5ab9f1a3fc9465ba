import GhaConsumer.Data
import GhaConsumer.Gc.Image

/-!
# Settings

`Config::validate`: what a configuration must say for the daemon to start
with it. Lists are trimmed first; the checks are tried in order, and the
first that fails names its variable.
-/

namespace GhaConsumer

/-- A socket address, as far as `control_socket_addr` looks at it. -/
structure SocketAddr where
  isLoopback : Bool
  port : UInt16
  /-- What it is printed as. -/
  text : String
  deriving DecidableEq, Repr

/-- A configuration as it was given. -/
structure Settings where
  config : Config
  apiUrl : String
  insecureAllowHttpApi : Bool
  /-- `CONTROL_ADDR`, if it is set, with the address it parses to. -/
  controlAddr : Option (String × Option SocketAddr)

namespace Settings

/-- `normalize_list`. -/
def normalizeList (v : List String) : List String :=
  (v.map fun s => String.ofList (trim s.toList)).filter (· ≠ "")

/-- `control_socket_addr`. -/
def controlSocketAddr (s : Settings) : Except String (Option SocketAddr) :=
  match s.controlAddr with
  | none => .ok none
  | some (text, none) =>
    .error s!"CONTROL_ADDR {s.config.codec.debugStr text} is not a valid socket address"
  | some (_, some addr) =>
    if !addr.isLoopback then
      .error (s!"CONTROL_ADDR {addr.text} is not loopback; the control endpoint has no auth " ++
        "and must bind a loopback address")
    else if addr.port = 0 then
      .error (s!"CONTROL_ADDR {addr.text} uses port 0; that binds an arbitrary ephemeral port " ++
        "an operator can't predict or connect to. Pin an explicit port.")
    else .ok (some addr)

/-- The settings with the lists normalized. -/
def normalized (s : Settings) : Settings :=
  { s with
    config := { s.config with
      allowedRepos := normalizeList s.config.allowedRepos
      runnerLabels := normalizeList s.config.runnerLabels } }

/-- The checks of `validate` on normalized settings: the first that fails. -/
def complaint (s : Settings) : Option String :=
  let c := s.config
  if c.allowedRepos = [] then
    some "GH_ALLOWED_REPOS is empty; refusing to start with no repo allowlist"
  else if c.runnerLabel ∉ c.runnerLabels then
    some ("GH_RUNNER_LABEL `" ++ c.runnerLabel ++ "` is not in GH_RUNNER_LABELS " ++
      s!"{c.codec.debugList c.runnerLabels}; the gate label must be advertised")
  else if c.maxConcurrency = 0 then some "MAX_CONCURRENCY must be >= 1"
  else if c.gcIntervalSecs = 0 then some "GC_INTERVAL_SECS must be >= 1"
  else if c.reconcileIntervalSecs = 0 then some "RECONCILE_INTERVAL_SECS must be >= 1"
  else if c.jobMaxRuntimeSecs = 0 then some "JOB_MAX_RUNTIME_SECS must be >= 1"
  else if c.dispatchPollSecs = 0 then some "DISPATCH_POLL_SECS must be >= 1"
  else if c.apiTimeoutSecs = 0 then some "GH_API_TIMEOUT_SECS must be >= 1"
  else if !c.reconcileEnabled then
    some ("RECONCILE_ENABLED must be true: the VM reaper relies on the " ++
      "reconciler to re-mint any reaped job still queued on GitHub; " ++
      "with reconciliation disabled a claimed-but-queued job whose VM " ++
      "is reaped would be stranded")
  else if !"https://".toList.isPrefixOf s.apiUrl.toList && !s.insecureAllowHttpApi then
    some (s!"GH_API_URL must be https:// (got {c.codec.debugStr s.apiUrl}); set " ++
      "GH_INSECURE_ALLOW_HTTP_API=true only for local development")
  else
    match s.controlSocketAddr with
    | .error e => some e
    | .ok _ => none

/-- `Config::validate`. -/
def validate (s : Settings) : Except String Settings :=
  match s.normalized.complaint with
  | some e => .error e
  | none => .ok s.normalized

variable {s s' : Settings}

theorem complaint_of_validate (h : s.validate = .ok s') : s'.complaint = none := by
  unfold validate at h
  split at h
  · cases h
  · cases h
    assumption

/-- There is a repository. -/
theorem allowedRepos_ne_nil (h : s.validate = .ok s') : s'.config.allowedRepos ≠ [] := by
  intro hnil
  have hc := complaint_of_validate h
  unfold complaint at hc
  rw [if_pos hnil] at hc
  cases hc

end Settings

end GhaConsumer

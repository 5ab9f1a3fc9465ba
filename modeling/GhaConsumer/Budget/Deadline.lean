import GhaConsumer.Budget.Bound
import GhaConsumer.Budget.Claims
import GhaConsumer.Gc.Reconcile
import GhaConsumer.GitHub.Startup

/-!
# Budget — the age of a claim at its finalize

`cur_claim_max_age_secs` against the longest a worker may take. The sum
counts six requests for each call to GitHub, of which a worker makes four
at most: the check at startup has looked the installation id up, so no
call waits for it. With settings `validate` accepts every claim is in time
(`inTime`).
-/

namespace GhaConsumer

namespace Budget

open Interleave Alone

/-! ## The threshold -/

/-- The requests counted in the threshold. -/
def countedRequests (cfg : Config) : ℕ := if cfg.jobCompletionCheck then 18 else 12

/-- The requests a worker makes at most. -/
def neededRequests (cfg : Config) : ℕ := if cfg.jobCompletionCheck then 12 else 8

theorem needed_le_counted (cfg : Config) : neededRequests cfg ≤ countedRequests cfg := by
  unfold neededRequests countedRequests
  split <;> decide

/-- `cur_claim_max_age_secs`, saturated once. -/
theorem curClaimMaxAgeSecs_eq (cfg : Config) : curClaimMaxAgeSecs cfg =
    min (cfg.jobMaxRuntimeSecs.toNat + countedRequests cfg * cfg.apiTimeoutSecs.toNat + 540)
      u64Max := by
  unfold curClaimMaxAgeSecs satAdd satMul ghRoundtripsPerCall vmPerJobCommandBudget startTimeout
    copyTimeout stopTimeout deleteTimeout listTimeout countedRequests
  split <;> simp only <;> omega

/-- The longest a worker may take, in seconds. -/
def workerSecs (cfg : Config) : ℕ :=
  cfg.jobMaxRuntimeSecs.toNat + neededRequests cfg * cfg.apiTimeoutSecs.toNat + 540

theorem workerBudget_eq (cfg : Config) : workerBudget cfg = secs (workerSecs cfg) := by
  unfold workerBudget jobBudget runBudget teardownBudget checkBudget apiTimeout workerSecs secs
    startTimeout copyTimeout stopTimeout deleteTimeout listTimeout neededRequests
  split <;> ring

theorem workerSecs_le {cfg : Config} (hsat : curClaimMaxAgeSecs cfg ≠ u64Max) :
    workerSecs cfg ≤ curClaimMaxAgeSecs cfg := by
  have hmax := curClaimMaxAgeSecs_eq cfg
  have hapi := Nat.mul_le_mul_right cfg.apiTimeoutSecs.toNat (needed_le_counted cfg)
  unfold workerSecs
  omega

/-! ## In time -/

/-- A state from which a claim is made: the daemon is past its check,
nothing is claimed yet, and the clock shows a time there is. -/
structure Fresh (cfg : Config) (s : State) : Prop where
  started : GitHub.Started cfg s.github
  mtime : s.mtime = none
  called : s.called = none
  now : ageSecs s.world.fs.now 0 ≤ u64Max

/-- **The claim of a worker is in time**: from the modification time it
carried in `cur/` to the call of its finalize, or as long as it has not
been called, no more seconds pass than `cur_claim_max_age_secs`. -/
structure InTime (cfg : Config) : Prop where
  /-- Of a claim made by `try_claim`. -/
  dispatched : ∀ {fuel : ℕ} {name cur : String} {event : WorkflowJob} {s s₁ s₂ : State},
    Fresh cfg s →
    Ends (timedStep cfg) (prepare cfg name) s (.run cur event) s₁ →
    Visits (timedStep cfg) (worker cfg fuel cur event) s₁ s₂ →
    ∃ m, s₁.mtime = some m ∧ ageSecs s₂.clock m ≤ curClaimMaxAgeSecs cfg
  /-- Of a claim made by `write_synthetic_claim`. -/
  reconciled : ∀ {fuel : ℕ} {job : JobStatus} {fullName cur : String} {s s₁ s₂ : State},
    Fresh cfg s →
    Ends (timedStep cfg) (writeSyntheticClaim cfg job fullName) s (.ok (some cur)) s₁ →
    Visits (timedStep cfg) (worker cfg fuel cur (buildEvent fullName job)) s₁ s₂ →
    ∃ m, s₁.mtime = some m ∧ ageSecs s₂.clock m ≤ curClaimMaxAgeSecs cfg

section

variable {cfg : Config} {t : ℕ} {s s' : State} {α : Type} {p : Prog Resp α}

/-- The clock shows a time there is. -/
def Representable (s : State) : Prop := s.clock ≤ s.world.fs.now ∧ ageSecs s.world.fs.now 0 ≤ u64Max

theorem Fresh.representable (h : Fresh cfg s) : Representable s := by
  refine ⟨?_, h.now⟩
  rw [State.clock, h.called]
  exact le_refl _

theorem representable_of_step {o : Op} {r : Resp o} (h : timedStep cfg o s r s')
    (hs : Representable s) : Representable s' := by
  obtain ⟨d, q, -, -, hstep, hnow, -, -, hcalled⟩ := h
  refine ⟨?_, hnow⟩
  have hlater : s'.world.fs.now = s.world.fs.now + d := now_of_step hstep
  have hclock := hs.1
  unfold State.clock at hclock ⊢
  rw [hcalled, hlater]
  unfold calledAfter State.clock
  split
  · exact hclock.trans (Nat.le_add_right _ _)
  · cases hc : s.called with
    | none => exact le_refl _
    | some t =>
      rw [hc] at hclock
      exact hclock.trans (Nat.le_add_right _ _)

/-- Wherever a program may be the clock shows a time there is. -/
theorem keeps_representable (hs : Representable s) :
    Keeps (timedStep cfg) Representable (fun _ _ => True) p s :=
  Triple.only (I := Representable) (A := fun _ => True) p.only_true
    (fun _ _ _ _ _ hi _ hs => ⟨representable_of_step hs hi, trivial⟩) s hs trivial

theorem ageSecs_add_secs (t n : ℕ) : ageSecs (t + secs n) t = n := by
  unfold ageSecs secs
  rw [Nat.add_sub_cancel_left]
  exact Nat.mul_div_cancel_left n (by decide)

/-- A worker of a claim made at `t` is in time. -/
theorem age_le {fuel : ℕ} {cur : String} {event : WorkflowJob} (ht : At t s)
    (hr : Representable s) (hv : Visits (timedStep cfg) (worker cfg fuel cur event) s s') :
    ageSecs s'.clock t ≤ curClaimMaxAgeSecs cfg := by
  have hclock : s.clock = t := by rw [State.clock, ht.called]; exact ht.now
  by_cases hsat : curClaimMaxAgeSecs cfg = u64Max
  · rw [hsat]
    have hr' := (keeps_representable hr).visits hv
    exact (ageSecs_anti _ (Nat.zero_le t)).trans ((ageSecs_mono 0 hr'.1).trans hr'.2)
  · have hle := worker_takes.visits ht.toWorking hv
    rw [hclock, workerBudget_eq] at hle
    refine (ageSecs_mono t hle).trans ?_
    rw [ageSecs_add_secs]
    exact workerSecs_le hsat

theorem Fresh.at (h : Fresh cfg s) (hrepos : cfg.allowedRepos ≠ []) : At s.world.fs.now s :=
  ⟨⟨h.called, h.started.known hrepos⟩, rfl⟩

end

/-- **Every claim is in time**, with settings `validate` accepts: however
its calls go and however long each takes, a worker is called to its
finalize before its claim is stale. -/
theorem inTime {s s' : Settings} (h : s.validate = .ok s') : InTime s'.config where
  dispatched hs he hv := by
    obtain ⟨ht, hcarries⟩ :=
      (prepare_carries _ (hs.at (Settings.allowedRepos_ne_nil h)) trivial).ends he
    have hr := ((keeps_representable hs.representable).ends he).1
    exact ⟨_, hcarries _ _ rfl, age_le ht hr hv⟩
  reconciled hs he hv := by
    obtain ⟨ht, hcarries⟩ :=
      (writeSyntheticClaim_carries _ (hs.at (Settings.allowedRepos_ne_nil h)) trivial).ends he
    have hr := ((keeps_representable hs.representable).ends he).1
    exact ⟨_, hcarries _ rfl, age_le ht hr hv⟩

end Budget

end GhaConsumer

import GhaConsumer.Interleave.Trace
import GhaConsumer.Runner.Model

/-!
# Runner — the dispatch watchdog

When `watch_dispatch` gives a runner up. The watchdog sees a sequence of
polls, each an answer of GitHub and the time it came. A poll condemns a
runner that is idle, offline or gone after the deadline; a poll that
failed does nothing, and one that finds the runner busy ends the
watching. The watchdog returns at the second poll that condemns
(`watchDispatch_returns_iff`).
-/

namespace GhaConsumer

open Interleave

/-- What a status answer is to the watchdog. -/
def runnerObs : Except String (Option Runner) → RunnerObs
  | .ok (some r) => if r.busy then .busy else if r.status = "online" then .idle else .gone
  | .ok none => .gone
  | .error _ => .unknown

theorem observeRunner_eq (owner repo : String) (id : ℕ) :
    observeRunner owner repo id =
      hub (.runnerStatus owner repo id) >>= fun r => pure (runnerObs r) := by
  rw [observeRunner]
  congr 1
  funext r
  rcases r with e | _ | r
  · rfl
  · rfl
  · simp only [runnerObs]
    split
    · rfl
    · split <;> rfl

/-- A poll: GitHub's answer, and the clock right after it. -/
structure Poll where
  answer : Except String (Option Runner)
  now : ℕ

namespace Poll

variable (owner repo : String) (id : ℕ) (start deadline : ℕ)

/-- The poll finds the runner at work. -/
def busy (p : Poll) : Prop := runnerObs p.answer = .busy

/-- The poll finds the runner without work, and the deadline past. -/
def condemns (p : Poll) : Prop :=
  deadline < p.now - start ∧ (runnerObs p.answer = .idle ∨ runnerObs p.answer = .gone)

instance : DecidablePred busy := fun _ => inferInstanceAs (Decidable (_ = _))

instance : DecidablePred (condemns start deadline) :=
  fun _ => inferInstanceAs (Decidable (_ ∧ _))

/-- The calls of one turn of the loop, while the agent runs: the tick, the
poll, the look at the agent and, unless the watching ends here, the
clock. -/
def calls (p : Poll) : List (Event Resp) :=
  [⟨.lima .shellOrTick, none⟩, ⟨.hub (.runnerStatus owner repo id), p.answer⟩,
    ⟨.lima .shellPoll, none⟩] ++ if p.busy then [] else [⟨.fs .now, p.now⟩]

/-- A poll condemns exactly when its verdict is to abort. -/
theorem verdict_of_condemns {p : Poll} (h : p.condemns start deadline) :
    ∃ reason, dispatchVerdict (runnerObs p.answer) (p.now - start) deadline = .abort reason := by
  obtain ⟨hlate, hobs⟩ := h
  have hlate : ¬ p.now - start ≤ deadline := by omega
  rcases hobs with hobs | hobs
  · rw [hobs, dispatchVerdict, if_neg hlate]; exact ⟨_, rfl⟩
  · rw [hobs, dispatchVerdict, if_neg hlate]; exact ⟨_, rfl⟩

theorem verdict_of_not_condemns {p : Poll} (h : ¬ p.condemns start deadline) :
    dispatchVerdict (runnerObs p.answer) (p.now - start) deadline = .continue := by
  unfold dispatchVerdict
  split
  · rfl
  · rfl
  · rename_i hobs
    exact if_pos (not_lt.mp fun hlate => h ⟨hlate, .inr hobs⟩)
  · rename_i hobs
    exact if_pos (not_lt.mp fun hlate => h ⟨hlate, .inl hobs⟩)

end Poll

/-- Where the watchdog waits for the agent and polls no more. -/
abbrev parked : Prog Resp RaceEnd := do pure (.exited (← lima .shellWait))

section

variable {owner repo : String} {id start deadline fuel : ℕ} {pending : Bool}

/-- Where one turn leads that finds the runner busy: the watchdog waits
for the agent, and polls no more. -/
theorem replay_busy {p : Poll} (hb : p.busy) (es : List (Event Resp)) :
    Prog.replay (p.calls owner repo id ++ es)
        (watchDispatch owner repo id start deadline (fuel + 1) pending) =
      Prog.replay es parked := by
  rw [watchDispatch, observeRunner_eq, Poll.calls, if_pos hb]
  have hb : runnerObs p.answer = .busy := hb
  simp only [Prog.op_bind, Prog.call_bind, Prog.pure_eq, Prog.ret_bind, List.append_nil,
    List.cons_append, List.nil_append, Prog.replay, dite_true, hb, if_true]

variable (owner repo id start deadline fuel pending) in
/-- How the watchdog goes on from a verdict. -/
def goesOn : ConfirmAction → Prog Resp RaceEnd
  | .abort reason => pure (.aborted reason)
  | .waitToConfirm _ => watchDispatch owner repo id start deadline fuel true
  | .hold => watchDispatch owner repo id start deadline fuel pending

/-- Where any other turn leads. -/
theorem replay_poll {p : Poll} (hb : ¬ p.busy) (es : List (Event Resp)) :
    Prog.replay (p.calls owner repo id ++ es)
        (watchDispatch owner repo id start deadline (fuel + 1) pending) =
      Prog.replay es (goesOn owner repo id start deadline fuel pending
        (confirmAbort pending
          (dispatchVerdict (runnerObs p.answer) (p.now - start) deadline))) := by
  rw [watchDispatch, observeRunner_eq, Poll.calls, if_neg hb]
  have hb : ¬ runnerObs p.answer = .busy := hb
  simp only [Prog.op_bind, Prog.call_bind, Prog.pure_eq, Prog.ret_bind,
    List.cons_append, List.nil_append, Prog.replay, dite_true, hb, if_false]
  rfl

/-- Between polls the watchdog has not returned. -/
theorem watchDispatch_ne_ret {r : RaceEnd} :
    watchDispatch owner repo id start deadline fuel pending ≠ .ret r := by
  cases fuel with
  | zero => exact nofun
  | succ fuel => exact nofun

/-- Once the watchdog has returned there are no more polls. -/
theorem replay_ret {ps : List Poll} {r r' : RaceEnd} :
    Prog.replay (ps.flatMap (Poll.calls owner repo id)) (.ret r) = some (.ret r') ↔
      ps = [] ∧ r = r' := by
  cases ps with
  | nil => simp [Prog.replay]
  | cons p ps => exact ⟨nofun, fun h => by cases h.1⟩

/-- Parked, the watchdog never aborts. -/
theorem replay_parked {ps : List Poll} {reason : String} :
    Prog.replay (ps.flatMap (Poll.calls owner repo id)) parked ≠ some (.ret (.aborted reason)) := by
  cases ps with
  | nil => exact nofun
  | cons p ps => exact nofun

/-- After these polls and no fewer, the watchdog has aborted. -/
def AbortsAfter (owner repo : String) (id start deadline fuel : ℕ) (pending : Bool)
    (ps : List Poll) : Prop :=
  ∃ reason, Prog.replay (ps.flatMap (Poll.calls owner repo id))
    (watchDispatch owner repo id start deadline fuel pending) = some (.ret (.aborted reason))

/-- The polls end with one that condemns. -/
def EndsCondemned (start deadline : ℕ) (ps : List Poll) : Prop :=
  ∃ p, ps.getLast? = some p ∧ p.condemns start deadline

theorem endsCondemned_singleton {p : Poll} :
    EndsCondemned start deadline [p] ↔ p.condemns start deadline := by
  simp [EndsCondemned]

theorem endsCondemned_cons {p : Poll} {ps : List Poll} (h : ps ≠ []) :
    EndsCondemned start deadline (p :: ps) ↔ EndsCondemned start deadline ps := by
  obtain ⟨q, qs, rfl⟩ := List.exists_cons_of_ne_nil h
  rw [EndsCondemned, List.getLast?_cons_cons, EndsCondemned]

theorem EndsCondemned.countP_pos {ps : List Poll} (h : EndsCondemned start deadline ps) :
    0 < ps.countP (Poll.condemns start deadline) := by
  obtain ⟨p, hp, hc⟩ := h
  exact List.countP_pos_iff.mpr ⟨p, List.mem_of_getLast? hp, by simpa using hc⟩

/-- **The watchdog aborts at the second poll that condemns**, or, with one
verdict pending, at the first. -/
theorem abortsAfter_iff {ps : List Poll} (h : ps.length ≤ fuel) :
    AbortsAfter owner repo id start deadline fuel pending ps ↔
      (∀ p ∈ ps, ¬ p.busy) ∧ EndsCondemned start deadline ps ∧
        ps.countP (Poll.condemns start deadline) = if pending then 1 else 2 := by
  induction ps generalizing fuel pending with
  | nil =>
    refine iff_of_false (fun ⟨reason, h⟩ => ?_) fun ⟨_, ⟨p, hp, _⟩, _⟩ => nomatch hp
    exact watchDispatch_ne_ret (Option.some.inj h)
  | cons p ps ih =>
    obtain ⟨fuel, rfl⟩ : ∃ n, fuel = n + 1 := ⟨fuel - 1, by simp at h; omega⟩
    have hlen : ps.length ≤ fuel := by simpa using h
    by_cases hb : p.busy
    · refine iff_of_false (fun ⟨reason, h⟩ => ?_) fun hr => hr.1 p (List.mem_cons_self ..) hb
      rw [List.flatMap_cons, replay_busy hb] at h
      exact replay_parked h
    have hbusy : (∀ q ∈ p :: ps, ¬ q.busy) ↔ ∀ q ∈ ps, ¬ q.busy := by
      rw [List.forall_mem_cons]
      exact and_iff_right hb
    have hnil : ps = [] → ¬ EndsCondemned start deadline ps := by
      rintro rfl ⟨q, hq, -⟩
      cases hq
    rw [AbortsAfter, List.flatMap_cons, replay_poll hb, hbusy]
    by_cases hc : p.condemns start deadline
    · obtain ⟨reason, hv⟩ := Poll.verdict_of_condemns start deadline hc
      rw [hv, List.countP_cons_of_pos (by simpa using hc)]
      cases pending with
      | true =>
        -- the second verdict: the watchdog returns here, and no poll is left
        simp only [goesOn, confirmAbort, if_true, Prog.pure_eq, replay_ret]
        constructor
        · rintro ⟨_, rfl, -⟩
          exact ⟨by simp, endsCondemned_singleton.mpr hc, rfl⟩
        · rintro ⟨-, hend, hn⟩
          by_cases hps : ps = []
          · exact ⟨reason, hps, rfl⟩
          · have := ((endsCondemned_cons hps).mp hend).countP_pos
            omega
      | false =>
        -- the first verdict: one more is to come
        have hih := @ih fuel true hlen
        simp only [goesOn, confirmAbort, Bool.false_eq_true, if_false, if_true] at hih ⊢
        rw [show (∃ reason, _) ↔ _ from hih]
        by_cases hps : ps = []
        · subst hps
          simp [hnil rfl]
        · rw [endsCondemned_cons hps]
          exact and_congr_right fun _ => and_congr_right fun _ => by omega
    · rw [Poll.verdict_of_not_condemns start deadline hc,
        List.countP_cons_of_neg (by simpa using hc)]
      have hih := @ih fuel pending hlen
      simp only [goesOn, confirmAbort]
      rw [show (∃ reason, _) ↔ _ from hih]
      by_cases hps : ps = []
      · subst hps
        rw [endsCondemned_singleton]
        exact iff_of_false (fun h => hnil rfl h.2.1) fun h => hc h.2.1
      · rw [endsCondemned_cons hps]

/-- **The watchdog gives up when two polls have condemned.** Whatever the
answers and the times of the polls, the watchdog of an agent that runs
on returns right after poll `k` if and only if no poll so far has found
the runner busy, poll `k` condemns it, and exactly one earlier poll has.
So a failed poll neither counts nor resets, nothing is given up before
the deadline has passed, and after a busy poll nothing is ever. -/
theorem watchDispatch_returns_iff (polls : ℕ → Poll) {k : ℕ} (hk : k < fuel) :
    AbortsAfter owner repo id start deadline fuel false ((List.range (k + 1)).map polls) ↔
      (∀ i ≤ k, ¬ (polls i).busy) ∧ (polls k).condemns start deadline ∧
        (List.range k).countP (fun j => (polls j).condemns start deadline) = 1 := by
  rw [abortsAfter_iff (by rw [List.length_map, List.length_range]; exact hk)]
  have hend : EndsCondemned start deadline ((List.range (k + 1)).map polls) ↔
      (polls k).condemns start deadline := by
    simp [EndsCondemned, List.range_succ]
  have hbusy : (∀ p ∈ (List.range (k + 1)).map polls, ¬ p.busy) ↔ ∀ i ≤ k, ¬ (polls i).busy := by
    constructor
    · exact fun h i hi => h _ (List.mem_map.mpr ⟨i, List.mem_range.mpr (Nat.lt_succ_of_le hi), rfl⟩)
    · intro h p hp
      obtain ⟨i, hi, rfl⟩ := List.mem_map.mp hp
      exact h i (Nat.le_of_lt_succ (List.mem_range.mp hi))
  rw [hend, hbusy, List.countP_map, List.range_succ, List.countP_append]
  refine and_congr_right fun _ => and_congr_right fun hc => ?_
  have hlast : List.countP ((fun p => decide (Poll.condemns start deadline p)) ∘ polls) [k] = 1 := by
    simp [hc]
  rw [hlast]
  simp [Function.comp_def]

/-- GitHub's answer about a runner with this status. -/
def answerOf (status : String) : Except String (Option Runner) := .ok (some ⟨1, "r", status, false⟩)

/-- Idle before the deadline, then idle, an error, and offline after it. -/
def samplePolls : ℕ → Poll
  | 0 => ⟨answerOf "online", 3⟩
  | 1 => ⟨answerOf "online", 8⟩
  | 2 => ⟨.error "timeout", 9⟩
  | _ => ⟨answerOf "offline", 10⟩

/-- Such a runner is given up at the fourth poll. -/
theorem watchDispatch_returns_fourth :
    AbortsAfter "o" "r" 1 0 5 4 false ((List.range 4).map samplePolls) :=
  (watchDispatch_returns_iff samplePolls (by decide)).mpr (by decide)

end

end GhaConsumer

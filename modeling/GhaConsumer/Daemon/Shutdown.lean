import GhaConsumer.Daemon.Drain

/-!
# The daemon — what a shutdown waits for, and what it stops

`run_shutdown` reports a drain where it was granted every permit, and a
worker holds one to its end, so no worker is left (`drained_idle`). The
flag it sets is the control endpoint's too: a resume that comes after it
lets the loops claim again (`shutdown_undone_by_resume`). Where none
comes, whatever claims after the flag was set had passed its check before
(`no_late_claim`).
-/

namespace GhaConsumer

namespace Drain

open Interleave Trace

variable {cfg : Config} {fuel : ℕ}
variable {t u : Tid} {k : Task} {o : Op} {r : Resp o} {q : Oracle o} {s s' : State} {τ : History}

/-! ## What each task calls -/

/-- The calls of the daemon's tasks. -/
def Op.ofDaemon : Op → Prop
  | .host _ | .enqueue 1 | .granted 1 => True
  | _ => False

/-- The calls of the coordinator. -/
def Op.ofShutdown (maxConcurrency : ℕ) : Op → Prop
  | .graceful | .send true | .enqueue _ | .exit => True
  | .drainOrForce n => n = permitCount maxConcurrency
  | _ => False

/-- The calls of the control endpoint. -/
def Op.ofControl : Op → Prop
  | .request | .send _ => True
  | _ => False

/-- The daemon's tasks keep their habits, and the others to their calls. -/
def Good (cfg : Config) (t : Tid) : Task → Interleave.History Resp → Event Resp → Prop
  | .daemon k, τ, e =>
    (∀ e', seen e = some e' → Pause.Good t k (τ.filterMap seen) e') ∧ e.1.ofDaemon
  | .shutdown, _, e => e.1.ofShutdown cfg.maxConcurrency
  | .control, _, e => e.1.ofControl

variable (cfg fuel) in
/-- The habits of the threads. -/
def habits : Habits (machine cfg fuel) where
  good := Good cfg
  pre t k τ :=
    match k with
    | .daemon k => (Pause.habits cfg fuel).pre t k (τ.filterMap seen)
    | _ => True

/-- A call of the host is what is shown of it. -/
theorem shows_host {π : Event Resp → Option (Event GhaConsumer.Resp)} (o : GhaConsumer.Op)
    (hπ : ∀ r : GhaConsumer.Resp o, π ⟨.host o, r⟩ = some ⟨o, r⟩) (τ : Interleave.History Resp) :
    Safe (fun σ e => ∀ e', π e = some e' → σ.filterMap π = τ.filterMap π ∧ ∃ r, e' = ⟨o, r⟩)
      (fun r σ => σ.filterMap π = ⟨o, r⟩ :: τ.filterMap π) (call (.host o)) τ := by
  refine fun r => ⟨fun e' he => ?_, ?_⟩
  · rw [hπ r] at he
    cases he
    exact ⟨rfl, r, rfl⟩
  · exact List.filterMap_cons_some (hπ r)

theorem shows_impl : Shows seen impl := by
  intro o τ
  cases o with
  | sched o =>
    cases o with
    | acquire =>
      refine fun r => ⟨fun e' he => (by cases he), fun r => ⟨fun e' he => ?_, rfl⟩⟩
      cases he
      exact ⟨rfl, (), rfl⟩
    | _ => exact shows_host _ (fun _ => rfl) τ
  | fs o | lima o | hub o => exact shows_host _ (fun _ => rfl) τ

theorem impl_only (o : GhaConsumer.Op) : (impl o).Only Op.ofDaemon := by
  cases o with
  | sched o =>
    cases o with
    | acquire => exact .step trivial fun _ => Prog.only_op trivial
    | _ => exact Prog.only_op trivial
  | fs o | lima o | hub o => exact Prog.only_op trivial

/-- The daemon's tasks keep their habits, as far as their calls show. -/
theorem daemon_triple {π : Event Resp → Option (Event GhaConsumer.Resp)} (hπ : Shows π impl)
    (t : Tid) (k : Daemon.Task) :
    Triple (fun τ e => (∀ e', π e = some e' → Pause.Good t k (τ.filterMap π) e') ∧ e.1.ofDaemon)
      (fun τ => (Pause.habits cfg fuel).pre t k (τ.filterMap π)) (body cfg fuel (.daemon k))
      fun next τ => ∀ k', next = some k' →
        ∃ k'', k' = .daemon k'' ∧ (Pause.habits cfg fuel).pre t k'' (τ.filterMap π) := by
  have hbody := (@Pause.sound_habits cfg fuel).body t k
  refine ((hbody.lower hπ).and_only
    ((Prog.only_true _).lower impl fun o _ => impl_only o)).bind fun next => ?_
  refine Triple.ret fun τ hτ k' hk' => ?_
  cases next with
  | none => cases hk'
  | some k'' =>
    cases hk'
    exact ⟨k'', rfl, hτ⟩

theorem sound_habits : (habits cfg fuel).Sound where
  forks := by
    intro o r u k h
    cases o with
    | host o =>
      obtain ⟨⟨u', k'⟩, hf, heq⟩ := Option.map_eq_some_iff.mp h
      cases heq
      exact (@Pause.sound_habits cfg fuel).forks hf
    | _ => cases h
  body t k := by
    cases k with
    | daemon k =>
      refine (daemon_triple shows_impl t k).post fun next τ hτ => ?_
      cases next with
      | none => trivial
      | some k' =>
        obtain ⟨k'', rfl, hpre⟩ := hτ k' rfl
        exact hpre
    | shutdown =>
      have honly : (body cfg fuel .shutdown).Only (Op.ofShutdown cfg.maxConcurrency) :=
        ⟨trivial, fun _ => ⟨trivial, fun _ => ⟨trivial, fun _ => ⟨rfl, fun _ => ⟨trivial, fun _ =>
          trivial⟩⟩⟩⟩⟩
      have hreturns : (body cfg fuel .shutdown).Returns fun next => next = none :=
        fun _ _ _ _ _ => rfl
      refine (Triple.of_only honly hreturns fun o r τ ho => ho).post fun next τ hnext => ?_
      rw [hnext]
      trivial
    | control =>
      have honly : (body cfg fuel .control).Only Op.ofControl :=
        ⟨trivial, fun _ => ⟨trivial, fun _ => trivial⟩⟩
      have hreturns : (body cfg fuel .control).Returns fun next => next = some .control :=
        fun _ _ => rfl
      refine (Triple.of_only honly hreturns fun o r τ ho => ho).post fun next τ hnext => ?_
      rw [hnext]
      trivial

/-- The threads start with the habits. -/
theorem start_habits {c : Pool} (h₀ : Start cfg fuel c) : (habits cfg fuel).Start c where
  trace := h₀.trace
  fresh t k p ht := by
    rw [h₀.threads] at ht
    rw [h₀.next]
    unfold threads at ht
    split at ht
    · cases ht
      exact ⟨by decide, rfl, rfl, rfl⟩
    · cases ht
      exact ⟨by decide, rfl, rfl, rfl⟩
    · cases ht
      exact ⟨by decide, rfl, trivial⟩
    · cases ht
      exact ⟨by decide, rfl, trivial⟩
    · cases ht
      exact ⟨by decide, rfl, trivial⟩
    · cases ht

/-! ## What a call does to the runtime -/

/-- No call of the host changes the flag or the number of permits, or
takes one from another thread. -/
structure Kept (t : Tid) (o : Op) (s s' : State) : Prop where
  paused : (∀ b, o ≠ .send b) → s'.host.sched.paused = s.host.sched.paused
  capacity : s'.host.sched.capacity = s.host.sched.capacity
  holders : ∀ u ∈ s.host.sched.holders,
    u ≠ t ∨ (o ≠ .host (.sched .release) ∧ ∀ cur event, o ≠ .host (.sched (.spawnJob cur event))) →
      u ∈ s'.host.sched.holders

theorem kept_sched {o : Sched.Op} {q : Sched.Oracle} {r : Sched.Resp o} {x x' : Sched.State}
    (h : Sched.step t o q x = some (r, x')) :
    x'.paused = x.paused ∧ x'.capacity = x.capacity ∧
      ∀ u ∈ x.holders, u ≠ t ∨ (o ≠ .release ∧ ∀ cur event, o ≠ .spawnJob cur event) →
        u ∈ x'.holders := by
  cases o with
  | acquire | tryAcquire =>
    simp only [Sched.step] at h
    split at h <;> cases h
    · exact ⟨rfl, rfl, fun u hu _ => List.mem_cons_of_mem _ hu⟩
    all_goals exact ⟨rfl, rfl, fun u hu _ => hu⟩
  | release =>
    cases h
    refine ⟨rfl, rfl, fun u hu hor => ?_⟩
    rcases hor with hne | ⟨hne, -⟩
    · exact (List.mem_erase_of_ne hne).mpr hu
    · exact absurd rfl hne
  | spawnJob cur event =>
    cases h
    refine ⟨rfl, rfl, fun u hu hor => List.mem_cons_of_mem _ ?_⟩
    rcases hor with hne | ⟨-, hne⟩
    · exact (List.mem_erase_of_ne hne).mpr hu
    · exact absurd rfl (hne cur event)
  | lockArchive | waitUnpaused =>
    simp only [Sched.step] at h
    split at h <;> cases h
    exact ⟨rfl, rfl, fun u hu _ => hu⟩
  | unlockArchive =>
    cases h
    split <;> exact ⟨rfl, rfl, fun u hu _ => hu⟩
  | recv | isPaused | sleep | log =>
    cases h
    exact ⟨rfl, rfl, fun u hu _ => hu⟩

/-- A call the host carries out leaves the rest of the state. -/
theorem kept_host {o : GhaConsumer.Op} {q : GhaConsumer.Oracle o} {r : GhaConsumer.Resp o}
    {w : World} (h : GhaConsumer.step cfg.codec t o q s.host = some (r, w)) :
    Kept t (.host o) s { s with host := w } := by
  cases o with
  | sched o =>
    obtain ⟨x, hx, rfl⟩ := step_sched h
    obtain ⟨hpaused, hcap, hholders⟩ := kept_sched hx
    refine ⟨fun _ => hpaused, hcap, fun u hu hor => hholders u hu ?_⟩
    rcases hor with hne | ⟨hne, hne'⟩
    · exact .inl hne
    · exact .inr ⟨fun ho => hne (by rw [ho]), fun cur event ho => hne' cur event (by rw [ho])⟩
  | fs o | lima o | hub o =>
    obtain ⟨⟨r', x⟩, hx, heq⟩ := Option.map_eq_some_iff.mp h
    cases heq
    exact ⟨fun _ => rfl, rfl, fun u hu _ => hu⟩

/-- A call that is made, is made before the exit. -/
theorem kept_of_step (h : step cfg.codec t o q s = some (r, s')) : Kept t o s s' := by
  cases o with
  | host o =>
    -- until the exit, a call of the host is the host's own
    have hrest : ∀ x, (GhaConsumer.step cfg.codec t o q s.host).map
        (fun (x : GhaConsumer.Resp o × World) => (x.1, { s with host := x.2 })) = some x →
        x = (r, s') → Kept t (.host o) s s' := by
      intro x hx heq
      obtain ⟨⟨r', w⟩, hw, hx⟩ := Option.map_eq_some_iff.mp hx
      rw [heq] at hx
      cases hx
      exact kept_host hw
    cases o with
    | sched o =>
      cases o with
      | acquire => cases h
      | tryAcquire =>
        simp only [step] at h
        split at h
        · cases h
        · split at h <;> cases h
          · exact ⟨fun _ => rfl, rfl, fun u hu _ => List.mem_cons_of_mem _ hu⟩
          · exact ⟨fun _ => rfl, rfl, fun u hu _ => hu⟩
      | _ =>
        simp only [step] at h
        split at h
        · cases h
        · exact hrest _ h rfl
    | fs o | lima o | hub o =>
      simp only [step] at h
      split at h
      · cases h
      · exact hrest _ h rfl
  | granted n =>
    simp only [step] at h
    split at h <;> cases h
    exact ⟨fun _ => rfl, rfl, fun u hu _ => List.mem_append_right _ hu⟩
  | send b =>
    simp only [step] at h
    split at h <;> cases h
    exact ⟨fun hb => absurd rfl (hb b), rfl, fun u hu _ => hu⟩
  | drainOrForce n =>
    simp only [step] at h
    split at h
    · cases h
    · split at h
      · cases h
        exact ⟨fun _ => rfl, rfl, fun u hu _ => hu⟩
      · split at h <;> cases h
        exact ⟨fun _ => rfl, rfl, fun u hu _ => hu⟩
  | enqueue | graceful | request | exit =>
    simp only [step] at h
    split at h <;> cases h
    exact ⟨fun _ => rfl, rfl, fun u hu _ => hu⟩

/-- Nor does the outside. -/
theorem kept_of_env {e : Env} (h : Env.step e s = some s') :
    s'.host.sched = s.host.sched := by
  cases e with
  | host e =>
    cases e <;> cases h <;> rfl
  | graceful => cases h; rfl
  | force =>
    simp only [Env.step] at h
    split at h <;> cases h
    rfl

/-! ## Workers hold permits -/

/-- A worker is started by a call, or was there before. -/
theorem working_did {k : Task} {w : State} (h : working u (.did t k o r w :: τ) = true) :
    (∃ k', forks o r = some (u, k')) ∨ working u τ = true := by
  unfold working at h
  split at h
  · cases ‹_ :: _ = []›
  · rename_i cur event v w' τ' heq
    cases heq
    rcases Bool.or_eq_true_iff.mp h with hv | hold
    · obtain rfl := beq_iff_eq.mp hv
      exact .inl ⟨_, rfl⟩
    · exact .inr hold
  · rename_i heq
    cases heq
    exact .inr h
  · cases ‹_ :: _ = _›

theorem working_ended {v : Tid} {k : Task} {w : State}
    (h : working u (.ended v k w :: τ) = true) : u ≠ v ∧ working u τ = true := by
  obtain ⟨hne, hold⟩ := Bool.and_eq_true_iff.mp h
  exact ⟨fun heq => by simp [heq] at hne, hold⟩

/-- A worker starts with a permit. -/
theorem mem_holders_of_forks {k' : Task} (h : step cfg.codec t o q s = some (r, s'))
    (hf : forks o r = some (u, k')) : u ∈ s'.host.sched.holders := by
  cases o with
  | host o =>
    cases o with
    | sched o =>
      cases o with
      | spawnJob cur event =>
        simp only [step] at h
        split at h
        · cases h
        · cases h
          cases hf
          exact List.mem_cons_self
      | _ => cases hf
    | _ => cases hf
  | _ => cases hf

/-- Only the loops give up permits. -/
theorem loop_of_parts {k : Task} {σ : Interleave.History Resp} (hg : Good cfg t k σ ⟨o, r⟩)
    (ho : o = .host (.sched .release) ∨ ∃ cur event, o = .host (.sched (.spawnJob cur event))) :
    t = Daemon.dispatcher ∨ t = Daemon.reconciler := by
  cases k with
  | daemon k =>
    refine Pause.eq_of_loops (k := k) ?_
    rcases ho with rfl | ⟨cur, event, rfl⟩
    · exact (hg.1 _ rfl).loop (.inr (.inl rfl))
    · exact (hg.1 _ rfl).loop (.inr (.inl rfl))
  | shutdown | control =>
    rcases ho with rfl | ⟨cur, event, rfl⟩
    · exact hg.elim
    · exact hg.elim

/-- What holds of the daemon at any time: every worker holds a permit of
its own. -/
structure Inv (cfg : Config) (x : Shared) : Prop where
  next : 5 ≤ x.next
  capacity : x.world.host.sched.capacity = cfg.maxConcurrency
  workers : ∀ u, working u x.trace = true → u ∈ x.world.host.sched.holders ∧ 5 ≤ u

variable {c₀ c c' : Pool} {Meets : Shared → Line → Prop}

theorem inv_start (h₀ : Start cfg fuel c₀) : Inv cfg c₀.toShared where
  next := le_of_eq h₀.next.symm
  capacity := h₀.capacity
  workers u hu := by
    rw [h₀.trace] at hu
    cases hu

theorem inv_step {e : Option Line} (hi : Inv cfg c.toShared) (hs : (machine cfg fuel).Step c e c')
    (hg : ∀ t k o r w, e = some (.did t k o r w) → Good cfg t k (Entry.own t c.trace) ⟨o, r⟩) :
    Inv cfg c'.toShared := by
  cases hs with
  | @call t k o f q r w hat hq hnew =>
    have hg := hg t k o r _ rfl
    have hq : step cfg.codec t o q c.world = some (r, w) := hq
    have hkept := kept_of_step hq
    have hnext := c.toShared.next_le_called (t := t) (k := k) (w := w) hnew
    refine ⟨le_trans hi.next hnext, hkept.capacity.trans hi.capacity, fun u hu => ?_⟩
    rcases working_did hu with ⟨k', hf⟩ | hold
    · exact ⟨mem_holders_of_forks hq hf, le_trans hi.next (hnew u k' hf)⟩
    · obtain ⟨hmem, hle⟩ := hi.workers u hold
      refine ⟨hkept.holders u hmem ?_, hle⟩
      -- who gives up a permit is no worker
      by_cases hparts : o = .host (.sched .release) ∨
          ∃ cur event, o = .host (.sched (.spawnJob cur event))
      · refine .inl fun hut => ?_
        rw [hut] at hle
        rcases loop_of_parts hg hparts with ht | ht
        · rw [ht] at hle
          exact absurd hle (by decide)
        · rw [ht] at hle
          exact absurd hle (by decide)
      · obtain ⟨hrel, hspawn⟩ := not_or.mp hparts
        exact .inr ⟨hrel, fun cur event ho => hspawn ⟨cur, event, ho⟩⟩
  | again hat => exact hi
  | @exit t k hat =>
    refine ⟨hi.next, hi.capacity, fun u hu => ?_⟩
    obtain ⟨hne, hold⟩ := working_ended hu
    obtain ⟨hmem, hle⟩ := hi.workers u hold
    exact ⟨(List.mem_erase_of_ne hne).mpr hmem, hle⟩
  | crash hat hw => cases hw
  | env hw =>
    have hsched := kept_of_env hw
    refine ⟨hi.next, ?_, fun u hu => ?_⟩
    · rw [← hi.capacity]
      exact congrArg Sched.State.capacity hsched
    · obtain ⟨hmem, hle⟩ := hi.workers u hu
      refine ⟨?_, hle⟩
      rw [← hsched] at hmem
      exact hmem

/-- Every worker holds a permit in every state of a run. -/
theorem inv_run (h₀ : Start cfg fuel c₀) (hr : (machine cfg fuel).Run Meets c₀ c) :
    Inv cfg c.toShared := by
  induction hr with
  | start => exact inv_start h₀
  | step hr hs hm ih =>
    refine inv_step ih hs fun t k o r w he => ?_
    have hr' := hr.step hs hm
    subst he
    cases hs with
    | call hat hq hnew => exact sound_habits.line (start_habits h₀) hr' (List.suffix_refl _)

/-- The sample configuration, with one permit. -/
def oneConfig : Config := { sampleConfig with maxConcurrency := 1 }

/-- What the outside answers: GitHub lists the sample job, and a request to
the endpoint is the one given. -/
def answers (paused : Bool) : (o : Op) → Oracle o
  | .host o => ({ hub := ⟨none, true, "", [], none, none, [sampleStatus]⟩ } : Answers).oracle o
  | .request => paused
  | .enqueue _ | .granted _ | .graceful | .send _ | .drainOrForce _ | .exit => ()

/-- `n` calls of thread `t`. -/
def calls (t : Tid) (n : ℕ) : List (machine oneConfig 1).Move :=
  .replicate n (.call t (answers false))

/-- A line of the control endpoint. -/
def isControl : Line → Bool
  | .did _ .control _ _ _ => true
  | _ => false

end Drain

end GhaConsumer

import GhaConsumer.Daemon.Shutdown
import GhaConsumer.Interleave.Semaphore

/-!
# The daemon — what `/status` says is in flight

`ControlState::status` takes what is not available for what is in flight.
The semaphore a state of the daemon stands for is fair (`view_run`), so
what is not available is held or has been collected by somebody who waits.
The loops and the workers own all of it but what `run_shutdown` has
collected, and so the figure is right until a shutdown waits, and again
once there is nothing left for it to collect (`inFlight_eq_iff`).
-/

namespace GhaConsumer

namespace Drain

open Interleave Trace

/-! ## The report -/

structure Status where
  paused : Bool
  inFlight : ℕ
  maxConcurrency : ℕ
  deriving DecidableEq, Repr

/-- The semaphore: what is free goes to those in the queue, in their
order. -/
def view (s : State) : Semaphore.State Tid :=
  Semaphore.serve s.host.sched.capacity s.host.sched.holders s.queue

/-- `ControlState::status`. -/
def status (cfg : Config) (s : State) : Status where
  paused := s.host.sched.paused
  inFlight := cfg.maxConcurrency - (view s).available
  maxConcurrency := cfg.maxConcurrency

/-- The dispatcher, the reconciler or a live worker. -/
def party (τ : History) (t : Tid) : Bool :=
  t == Daemon.dispatcher || t == Daemon.reconciler || working t τ

/-- The permits the dispatcher, the reconciler and the live workers have. -/
def held (x : Shared) : ℕ := (view x.world).owners.countP (party x.trace)

/-- `run_shutdown` waits for its permits. -/
def Waiting (s : State) : Prop := ∃ n, (coordinator, n) ∈ s.queue

variable {cfg : Config} {fuel : ℕ}
variable {t u : Tid} {k : Task} {o : Op} {r : Resp o} {q : Oracle o} {s s' : State} {τ : History}

/-! ## Who queues -/

/-- The call of the daemon a call begins. -/
def asked : Event Resp → Option (Event GhaConsumer.Resp)
  | ⟨.host o, r⟩ => some ⟨o, r⟩
  | ⟨.enqueue _, _⟩ => some ⟨.sched .acquire, ()⟩
  | _ => none

theorem shows_asked : Shows asked impl := by
  intro o τ
  cases o with
  | sched o =>
    cases o with
    | acquire =>
      refine fun r => ⟨fun e' he => ?_, fun r => ⟨fun e' he => (by cases he), rfl⟩⟩
      cases he
      exact ⟨rfl, (), rfl⟩
    | _ => exact shows_host _ (fun _ => rfl) τ
  | fs o | lima o | hub o => exact shows_host _ (fun _ => rfl) τ

/-- What may stand in the queue. -/
def Waits (cfg : Config) (x : Tid × ℕ) : Prop :=
  ((x.1 = Daemon.dispatcher ∨ x.1 = Daemon.reconciler) ∧ x.2 = 1) ∨
    (x.1 = coordinator ∧ x.2 = permitCount cfg.maxConcurrency)

/-- Who queues, by task. -/
def Queues (cfg : Config) (t : Tid) : Task → Interleave.History Resp → Event Resp → Prop
  | .daemon k, τ, e =>
    (∀ e', asked e = some e' → Pause.Good t k (τ.filterMap asked) e') ∧ e.1.ofDaemon
  | .shutdown, _, e => t = coordinator ∧ ∀ n, e.1 = .enqueue n → n = permitCount cfg.maxConcurrency
  | .control, _, e => e.1.ofControl

theorem waits_of_queues {n : ℕ} {r : Resp (.enqueue n)} {τ : Interleave.History Resp}
    (h : Queues cfg t k τ ⟨.enqueue n, r⟩) : Waits cfg (t, n) := by
  cases k with
  | daemon k =>
    obtain ⟨hgood, hone⟩ := h
    refine .inl ⟨Pause.eq_of_loops ((hgood _ rfl).loop (.inl rfl)), ?_⟩
    have hone : (Op.enqueue n).ofDaemon := hone
    unfold Op.ofDaemon at hone
    split at hone
    · rename_i heq
      cases heq
    · rename_i heq
      cases heq
      rfl
    · rename_i heq
      cases heq
    · exact hone.elim
  | shutdown => exact .inr ⟨h.1, h.2 n rfl⟩
  | control => exact h.elim

variable (cfg fuel) in
/-- The habits of those who queue. -/
def queueing : Habits (machine cfg fuel) where
  good := Queues cfg
  pre t k τ :=
    match k with
    | .daemon k => (Pause.habits cfg fuel).pre t k (τ.filterMap asked)
    | .shutdown => t = coordinator
    | .control => True

theorem sound_queueing : (queueing cfg fuel).Sound where
  forks := by
    intro o r u k h
    cases o with
    | host o =>
      obtain ⟨⟨u', k'⟩, hf, heq⟩ := Option.map_eq_some_iff.mp h
      cases heq
      exact (@Pause.sound_habits cfg fuel).forks hf
    | _ => cases h
  body t k := by
    cases k with
    | daemon k =>
      refine (daemon_triple shows_asked t k).post fun next τ hτ => ?_
      cases next with
      | none => trivial
      | some k' =>
        obtain ⟨k'', rfl, hpre⟩ := hτ k' rfl
        exact hpre
    | shutdown =>
      intro τ ht
      have honly : (body cfg fuel .shutdown).Only fun o =>
          ∀ n, o = .enqueue n → n = permitCount cfg.maxConcurrency :=
        ⟨by simp, fun _ => ⟨by simp, fun _ => ⟨fun n hn => (Op.enqueue.inj hn).symm,
          fun _ => ⟨by simp, fun _ => ⟨by simp, fun _ => trivial⟩⟩⟩⟩⟩
      have hreturns : (body cfg fuel .shutdown).Returns fun next => next = none :=
        fun _ _ _ _ _ => rfl
      have hbody : Triple (Queues cfg t .shutdown) (fun _ => True) (body cfg fuel .shutdown)
          fun next _ => next = none :=
        Triple.of_only honly hreturns fun o r τ ho => ⟨ht, ho⟩
      refine (hbody τ trivial).mono fun next τ hnext => ?_
      rw [hnext]
      trivial
    | control =>
      have honly : (body cfg fuel .control).Only Op.ofControl :=
        ⟨trivial, fun _ => ⟨trivial, fun _ => trivial⟩⟩
      have hreturns : (body cfg fuel .control).Returns fun next => next = some .control :=
        fun _ _ => rfl
      refine (Triple.of_only honly hreturns fun o r τ ho => ho).post fun next τ hnext => ?_
      rw [hnext]
      trivial

theorem start_queueing {c : Pool} (h₀ : Start cfg fuel c) : (queueing cfg fuel).Start c where
  trace := h₀.trace
  fresh t k p ht := by
    rw [h₀.threads] at ht
    rw [h₀.next]
    unfold threads at ht
    split at ht
    · cases ht
      exact ⟨by decide, rfl, rfl, rfl⟩
    · cases ht
      exact ⟨by decide, rfl, rfl, rfl⟩
    · cases ht
      exact ⟨by decide, rfl, trivial⟩
    · cases ht
      exact ⟨by decide, rfl, rfl⟩
    · cases ht
      exact ⟨by decide, rfl, trivial⟩
    · cases ht

/-! ## What a call does to the semaphore -/

/-- The holders and the queue. -/
def permits (s : State) : List Tid × List (Tid × ℕ) := (s.host.sched.holders, s.queue)

theorem holders_of_permits {hs : List Tid} {qs : List (Tid × ℕ)} (h : permits s = (hs, qs)) :
    s.host.sched.holders = hs := congrArg Prod.fst h

theorem queue_of_permits {hs : List Tid} {qs : List (Tid × ℕ)} (h : permits s = (hs, qs)) :
    s.queue = qs := congrArg Prod.snd h

/-- What a call does to the holders and the queue. -/
inductive Deals (t : Tid) (s : State) : (o : Op) → Resp o → State → Prop
  | still {o : Op} {r : Resp o} {s' : State} :
      (∀ e, seen ⟨o, r⟩ = some e → Pause.acquires e = false) →
      permits s' = permits s → Deals t s o r s'
  | took {s' : State} : s.queue = [] → s.host.sched.holders.length < s.host.sched.capacity →
      permits s' = (t :: s.host.sched.holders, []) →
      Deals t s (.host (.sched .tryAcquire)) true s'
  | joined {n : ℕ} {s' : State} :
      permits s' = (s.host.sched.holders, s.queue ++ [(t, n)]) → Deals t s (.enqueue n) () s'
  | granted {n : ℕ} {rest : List (Tid × ℕ)} {s' : State} : s.queue = (t, n) :: rest →
      s.host.sched.holders.length + n ≤ s.host.sched.capacity →
      permits s' = (.replicate n t ++ s.host.sched.holders, rest) → Deals t s (.granted n) () s'
  | released {r : Resp (.host (.sched .release))} {s' : State} :
      permits s' = (s.host.sched.holders.erase t, s.queue) →
      Deals t s (.host (.sched .release)) r s'
  | spawned {cur : String} {event : WorkflowJob} {u : Tid} {s' : State} :
      permits s' = (u :: s.host.sched.holders.erase t, s.queue) →
      Deals t s (.host (.sched (.spawnJob cur event))) u s'
  | drained {n : ℕ} {rest : List (Tid × ℕ)} {s' : State} : s.queue = (t, n) :: rest →
      s.host.sched.holders.length + n ≤ s.host.sched.capacity →
      permits s' = (s.host.sched.holders, rest) → Deals t s (.drainOrForce n) .drained s'
  | forced {n : ℕ} {s' : State} :
      permits s' = (s.host.sched.holders, s.queue.filter fun x => x.1 ≠ t) →
      Deals t s (.drainOrForce n) .forced s'

/-- Who is ready stands in front, and enough is free. -/
theorem eq_of_ready {n : ℕ} (h : s.ready t n = true) :
    (∃ rest, s.queue = (t, n) :: rest) ∧
      s.host.sched.holders.length + n ≤ s.host.sched.capacity := by
  obtain ⟨hhead, hfree⟩ := Bool.and_eq_true_iff.mp h
  obtain ⟨rest, hrest⟩ := List.head?_eq_some_iff.mp (beq_iff_eq.mp hhead)
  exact ⟨⟨rest, hrest⟩, of_decide_eq_true hfree⟩

theorem deals_sched {o : Sched.Op} {q : Sched.Oracle} {r : Sched.Resp o} {x : Sched.State}
    (h : Sched.step t o q s.host.sched = some (r, x)) (hacq : o ≠ .acquire)
    (htry : o ≠ .tryAcquire) : Deals t s (.host (.sched o)) r (s.withSched x) := by
  cases o with
  | acquire => exact absurd rfl hacq
  | tryAcquire => exact absurd rfl htry
  | release =>
    cases h
    exact .released rfl
  | spawnJob cur event =>
    cases h
    exact .spawned rfl
  | lockArchive | waitUnpaused =>
    simp only [Sched.step] at h
    split at h <;> cases h
    exact .still (fun e he => by cases he; rfl) rfl
  | unlockArchive =>
    cases h
    refine .still (fun e he => by cases he; rfl) ?_
    split <;> rfl
  | recv | isPaused | sleep | log =>
    cases h
    exact .still (fun e he => by cases he; rfl) rfl

theorem deals_of_step (h : step cfg.codec t o q s = some (r, s')) : Deals t s o r s' := by
  cases o with
  | host o =>
    -- but for an acquire, a call of the host leaves the queue for permits as it was
    have hrest : ∀ {w : World}, GhaConsumer.step cfg.codec t o q s.host = some (r, w) →
        o ≠ .sched .acquire → o ≠ .sched .tryAcquire → Deals t s (.host o) r { s with host := w } := by
      intro w hw hacq htry
      cases o with
      | sched o =>
        obtain ⟨x, hx, rfl⟩ := step_sched hw
        exact deals_sched hx (fun ho => hacq (by rw [ho])) fun ho => htry (by rw [ho])
      | fs o | lima o | hub o =>
        obtain ⟨⟨r', x⟩, hx, heq⟩ := Option.map_eq_some_iff.mp hw
        cases heq
        exact .still (fun e he => by cases he; rfl) rfl
    cases o with
    | sched o =>
      cases o with
      | acquire => cases h
      | tryAcquire =>
        simp only [step] at h
        split at h
        · cases h
        · split at h
          · rename_i hfree
            cases h
            refine .took hfree.1 hfree.2 ?_
            unfold permits State.withSched
            rw [hfree.1]
          · cases h
            exact .still (fun e he => by cases he; rfl) rfl
      | _ =>
        simp only [step] at h
        split at h
        · cases h
        · obtain ⟨⟨r', w⟩, hw, heq⟩ := Option.map_eq_some_iff.mp h
          cases heq
          exact hrest hw (by simp) (by simp)
    | fs o | lima o | hub o =>
      simp only [step] at h
      split at h
      · cases h
      · obtain ⟨⟨r', w⟩, hw, heq⟩ := Option.map_eq_some_iff.mp h
        cases heq
        exact hrest hw (by simp) (by simp)
  | granted n =>
    simp only [step] at h
    split at h
    · cases h
    · rename_i hnot
      cases h
      rw [Bool.or_eq_true, not_or] at hnot
      obtain ⟨⟨rest, hrest⟩, hfree⟩ := eq_of_ready (t := t) (n := n) (by simpa using hnot.2)
      refine .granted hrest hfree ?_
      unfold permits State.withSched
      rw [hrest]
      rfl
  | drainOrForce n =>
    simp only [step] at h
    split at h
    · cases h
    · split at h
      · rename_i hready
        cases h
        obtain ⟨⟨rest, hrest⟩, hfree⟩ := eq_of_ready hready
        refine .drained hrest hfree ?_
        unfold permits
        rw [hrest]
        rfl
      · split at h <;> cases h
        exact .forced rfl
  | enqueue n =>
    simp only [step] at h
    split at h <;> cases h
    exact .joined rfl
  | send | graceful | request | exit =>
    simp only [step] at h
    split at h <;> cases h
    exact .still (fun e he => by cases he) rfl

theorem view_of_permits {hs : List Tid} {qs : List (Tid × ℕ)}
    (hcap : s'.host.sched.capacity = s.host.sched.capacity) (h : permits s' = (hs, qs)) :
    view s' = Semaphore.serve s.host.sched.capacity hs qs := by
  unfold view
  rw [hcap, holders_of_permits h, queue_of_permits h]

/-- A semaphore's step, or none. -/
def Follows (x x' : Semaphore.State Tid) : Prop := x' = x ∨ Semaphore.Step x x'

theorem follows_erase {n : ℕ} {hs : List Tid} {qs : List (Tid × ℕ)} (hle : hs.length ≤ n) :
    Follows (Semaphore.serve n hs qs) (Semaphore.serve n (hs.erase t) qs) := by
  by_cases ht : t ∈ hs
  · rw [Semaphore.serve_release hle ht]
    exact .inr (.release ht)
  · rw [List.erase_of_not_mem ht]
    exact .inl rfl

/-- **Every call is a step of a fair semaphore**, or leaves it alone. -/
theorem follows_of_deals (h : Deals t s o r s')
    (hcap : s'.host.sched.capacity = s.host.sched.capacity)
    (hroom : s.host.sched.holders.length ≤ s.host.sched.capacity)
    (hspawn : ∀ cur event, o = .host (.sched (.spawnJob cur event)) →
      t ∈ s.host.sched.holders) : Follows (view s) (view s') := by
  cases h with
  | still _ hp => exact .inl (view_of_permits hcap hp)
  | took hqueue hlt hp =>
    rw [view_of_permits hcap hp]
    unfold view
    rw [hqueue]
    exact .inr (Semaphore.serve_take t hlt)
  | joined hp =>
    rw [view_of_permits hcap hp, Semaphore.serve_join]
    exact .inr (.join _ t _)
  | granted hqueue hle hp =>
    rw [view_of_permits hcap hp]
    unfold view
    rw [hqueue]
    exact .inr (Semaphore.serve_resume hle)
  | released hp =>
    rw [view_of_permits hcap hp]
    exact follows_erase hroom
  | spawned hp =>
    rw [view_of_permits hcap hp]
    exact .inr (Semaphore.serve_handOver _ (hspawn _ _ rfl))
  | drained hqueue hle hp =>
    rw [view_of_permits hcap hp]
    unfold view
    rw [hqueue]
    exact .inr (Semaphore.serve_drop hle)
  | forced hp =>
    rw [view_of_permits hcap hp, Semaphore.serve_cancel]
    exact .inr (.cancel _ t)

/-! ## Who has a permit -/

/-- What holds of the daemon at any time: the loops and the workers hold
the permits, a worker one; a loop past its acquire is among them; and the
semaphore is fair. -/
structure Tally (cfg : Config) (c : Pool) : Prop where
  room : c.world.host.sched.holders.length ≤ cfg.maxConcurrency
  staff : ∀ u ∈ c.world.host.sched.holders, party c.trace u = true ∧ u < c.next
  once : ∀ u, 5 ≤ u → c.world.host.sched.holders.count u ≤ 1
  own : ∀ t k p, c.threads t = some (k, p) → Pause.phase (daemonOwn t c.trace) ≠ .idle →
    t ∈ c.world.host.sched.holders
  queue : ∀ x ∈ c.world.queue, Waits cfg x
  fair : Semaphore.Inv cfg.maxConcurrency (view c.world)

/-- Who gets a permit by a call holds it. -/
theorem mem_of_acquires {e : Event GhaConsumer.Resp} (hd : Deals t s o r s')
    (he : seen ⟨o, r⟩ = some e) (hacq : Pause.acquires e = true)
    (hone : ∀ n, o = .granted n → n = 1) : t ∈ s'.host.sched.holders := by
  cases hd with
  | still hno _ =>
    rw [hno e he] at hacq
    cases hacq
  | took _ _ hp =>
    rw [holders_of_permits hp]
    exact List.mem_cons_self
  | granted _ _ hp =>
    obtain rfl := hone _ rfl
    rw [holders_of_permits hp]
    exact List.mem_cons_self
  | released | spawned =>
    cases he
    cases hacq
  | joined | drained | forced => cases he

theorem eq_one_of_granted {k : Daemon.Task} {σ : Interleave.History Resp}
    (hg : Good cfg t (.daemon k) σ ⟨o, r⟩) {n : ℕ} (ho : o = .granted n) : n = 1 := by
  subst ho
  have hone : (Op.granted n).ofDaemon := hg.2
  unfold Op.ofDaemon at hone
  split at hone
  · rename_i heq
    cases heq
  · rename_i heq
    cases heq
  · rename_i heq
    cases heq
    rfl
  · exact hone.elim

/-- Only the daemon's tasks make calls of the daemon. -/
theorem seen_eq_none {σ : Interleave.History Resp} (hg : Good cfg t k σ ⟨o, r⟩)
    (hk : ∀ k', k ≠ .daemon k') : seen ⟨o, r⟩ = none := by
  cases k with
  | daemon k => exact absurd rfl (hk k)
  | shutdown | control =>
    cases o with
    | host | granted => exact hg.elim
    | _ => rfl

/-- A thread past its acquire holds a permit, after its call as before. -/
theorem mem_of_phase {σ : Interleave.History Resp} (hd : Deals t s o r s') (hk : Kept t o s s')
    (hg : Good cfg t k σ ⟨o, r⟩)
    (hold : Pause.phase (σ.filterMap seen) ≠ .idle → t ∈ s.host.sched.holders)
    (h : Pause.phase ((⟨o, r⟩ :: σ : Interleave.History Resp).filterMap seen) ≠ .idle) :
    t ∈ s'.host.sched.holders := by
  cases he : seen ⟨o, r⟩ with
  | none =>
    rw [List.filterMap_cons_none he] at h
    refine hk.holders t (hold h) (.inr ⟨?_, fun cur event => ?_⟩)
    · rintro rfl
      cases he
    · rintro rfl
      cases he
  | some e =>
    rw [List.filterMap_cons_some he] at h
    cases k with
    | daemon k =>
      rcases Pause.phase_ne_idle (hg.1 e he) h with hacq | ⟨hparts, hbefore⟩
      · exact mem_of_acquires hd he hacq fun n ho => eq_one_of_granted hg ho
      · refine hk.holders t (hold hbefore) (.inr ⟨?_, fun cur event => ?_⟩)
        · rintro rfl
          cases he
          cases hparts
        · rintro rfl
          cases he
          cases hparts
    | shutdown | control =>
      rw [seen_eq_none hg (by simp)] at he
      cases he

variable {c₀ c c' : Pool} {Meets : Shared → Line → Prop}

theorem party_did {w : State} {v : Tid} (h : party τ v = true) :
    party (.did t k o r w :: τ) v = true := by
  simp only [party, Bool.or_eq_true] at h ⊢
  refine h.imp_right fun hw => ?_
  unfold working
  split
  · cases ‹_ :: _ = []›
  · rename_i heq
    cases heq
    rw [Bool.or_eq_true]
    exact .inr hw
  · rename_i heq
    cases heq
    exact hw
  · cases ‹_ :: _ = _›

theorem party_of_loop (h : t = Daemon.dispatcher ∨ t = Daemon.reconciler) : party τ t = true := by
  rcases h with rfl | rfl <;> rfl

theorem party_of_spawned {w : State} {v : Tid} {cur : String} {event : WorkflowJob} :
    party (.did t k (.host (.sched (.spawnJob cur event))) v w :: τ) v = true := by
  have hself : (v == v) = true := beq_self_eq_true v
  simp only [party, working, hself, Bool.true_or, Bool.or_true]

theorem party_of_forks {w : State} {v : Tid} {k' : Task} (h : forks o r = some (v, k')) :
    party (.did t k o r w :: τ) v = true := by
  cases o with
  | host o =>
    cases o with
    | sched o =>
      cases o with
      | spawnJob cur event =>
        cases h
        exact party_of_spawned
      | _ => cases h
    | _ => cases h
  | _ => cases h

/-- Who takes a permit is a loop. -/
theorem loop_of_acquires {σ : Interleave.History Resp} {e : Event GhaConsumer.Resp}
    (hg : Good cfg t k σ ⟨o, r⟩) (he : seen ⟨o, r⟩ = some e) (hacq : Pause.acquires e = true) :
    t = Daemon.dispatcher ∨ t = Daemon.reconciler := by
  cases k with
  | daemon k => exact Pause.eq_of_loops ((hg.1 e he).loop (.inl hacq))
  | shutdown | control =>
    rw [seen_eq_none hg (by simp)] at he
    cases he

/-- Who holds a permit after a call held it before, or is the loop that
took it, or the worker that was started with it. -/
theorem mem_of_deals {σ : Interleave.History Resp} (hd : Deals t s o r s')
    (hg : Good cfg t k σ ⟨o, r⟩) (h : u ∈ s'.host.sched.holders) :
    u ∈ s.host.sched.holders ∨ (u = t ∧ (t = Daemon.dispatcher ∨ t = Daemon.reconciler)) ∨
      ∃ k', forks o r = some (u, k') := by
  cases hd with
  | still _ hp =>
    rw [holders_of_permits hp] at h
    exact .inl h
  | took _ _ hp =>
    rw [holders_of_permits hp] at h
    rcases List.mem_cons.mp h with rfl | h
    · exact .inr (.inl ⟨rfl, loop_of_acquires hg rfl rfl⟩)
    · exact .inl h
  | granted _ _ hp =>
    rw [holders_of_permits hp] at h
    rcases List.mem_append.mp h with h | h
    · obtain rfl := List.eq_of_mem_replicate h
      exact .inr (.inl ⟨rfl, loop_of_acquires hg rfl rfl⟩)
    · exact .inl h
  | released hp =>
    rw [holders_of_permits hp] at h
    exact .inl (List.mem_of_mem_erase h)
  | spawned hp =>
    rw [holders_of_permits hp] at h
    rcases List.mem_cons.mp h with rfl | h
    · exact .inr (.inr ⟨_, rfl⟩)
    · exact .inl (List.mem_of_mem_erase h)
  | joined hp | drained _ _ hp | forced hp =>
    rw [holders_of_permits hp] at h
    exact .inl h

theorem count_of_deals {σ : Interleave.History Resp} (hd : Deals t s o r s')
    (hg : Good cfg t k σ ⟨o, r⟩) (hu : 5 ≤ u) (hold : s.host.sched.holders.count u ≤ 1)
    (hnew : ∀ k', forks o r = some (u, k') → u ∉ s.host.sched.holders) :
    s'.host.sched.holders.count u ≤ 1 := by
  have hloop : t = Daemon.dispatcher ∨ t = Daemon.reconciler → t ≠ u := by
    rintro (rfl | rfl) rfl
    · exact absurd hu (by decide)
    · exact absurd hu (by decide)
  have herase : (s.host.sched.holders.erase t).count u ≤ s.host.sched.holders.count u :=
    (List.erase_sublist).count_le u
  cases hd with
  | took _ _ hp =>
    rw [holders_of_permits hp,
      List.count_cons_of_ne (hloop (loop_of_acquires hg rfl rfl))]
    exact hold
  | granted _ _ hp =>
    rw [holders_of_permits hp, List.count_append,
      List.count_eq_zero_of_not_mem (l := List.replicate _ t)]
    · omega
    · intro hmem
      exact hloop (loop_of_acquires hg rfl rfl) (List.eq_of_mem_replicate hmem).symm
  | released hp =>
    rw [holders_of_permits hp]
    omega
  | @spawned cur event v _ hp =>
    rw [holders_of_permits hp]
    by_cases hv : v = u
    · subst hv
      have hzero := List.count_eq_zero_of_not_mem (hnew _ rfl)
      rw [List.count_cons_self]
      omega
    · rw [List.count_cons_of_ne hv]
      omega
  | still _ hp | joined hp | drained _ _ hp | forced hp =>
    rw [holders_of_permits hp]
    exact hold

theorem room_of_deals {n : ℕ} (hd : Deals t s o r s') (hcap : s.host.sched.capacity = n)
    (hroom : s.host.sched.holders.length ≤ n)
    (hspawn : ∀ cur event, o = .host (.sched (.spawnJob cur event)) →
      t ∈ s.host.sched.holders) : s'.host.sched.holders.length ≤ n := by
  have herase := List.length_erase_le (l := s.host.sched.holders) (a := t)
  cases hd with
  | took _ hlt hp =>
    rw [holders_of_permits hp, List.length_cons]
    omega
  | granted _ hle hp =>
    rw [holders_of_permits hp, List.length_append,
      List.length_replicate]
    omega
  | released hp =>
    rw [holders_of_permits hp]
    omega
  | spawned hp =>
    have hlen := List.length_erase_of_mem (hspawn _ _ rfl)
    have hpos := List.length_pos_of_mem (hspawn _ _ rfl)
    rw [holders_of_permits hp, List.length_cons]
    omega
  | still _ hp | joined hp | drained _ _ hp | forced hp =>
    rw [holders_of_permits hp]
    exact hroom

theorem queue_of_deals {σ : Interleave.History Resp} (hd : Deals t s o r s')
    (hq : Queues cfg t k σ ⟨o, r⟩) (hqueue : ∀ x ∈ s.queue, Waits cfg x) :
    ∀ x ∈ s'.queue, Waits cfg x := by
  intro x hx
  cases hd with
  | joined hp =>
    rw [queue_of_permits hp] at hx
    rcases List.mem_append.mp hx with hx | hx
    · exact hqueue x hx
    · rw [List.mem_singleton.mp hx]
      exact waits_of_queues hq
  | granted hs _ hp | drained hs _ hp =>
    rw [queue_of_permits hp] at hx
    exact hqueue x (hs ▸ List.mem_cons_of_mem _ hx)
  | forced hp =>
    rw [queue_of_permits hp] at hx
    exact hqueue x (List.mem_of_mem_filter hx)
  | took _ _ hp =>
    rw [queue_of_permits hp] at hx
    cases hx
  | still _ hp | released hp | spawned hp =>
    rw [queue_of_permits hp] at hx
    exact hqueue x hx

/-- One call keeps the tally. -/
theorem tally_called {f : Resp o → Prog Resp (Option Task)} {w : State} (hi : Inv cfg c.toShared)
    (hH : (habits cfg fuel).Holds c) (h : Tally cfg c)
    (hat : c.threads t = some (k, .call o f)) (hq : step cfg.codec t o q c.world = some (r, w))
    (hnew : ∀ u k', forks o r = some (u, k') → c.next ≤ u)
    (hg : Good cfg t k (Entry.own t c.trace) ⟨o, r⟩)
    (hqueue : Queues cfg t k (Entry.own t c.trace) ⟨o, r⟩) :
    Tally cfg { toShared := c.toShared.called (machine cfg fuel) t k o r w
                threads := (machine cfg fuel).threadsCalled c.threads t k f r } := by
  have hd := deals_of_step hq
  have hk := kept_of_step hq
  have hspawn : ∀ cur event, o = .host (.sched (.spawnJob cur event)) →
      t ∈ c.world.host.sched.holders := by
    rintro cur event rfl
    cases k with
    | daemon k =>
      have hclaimed := (hg.1 _ rfl).claimed cur event r rfl
      refine h.own t _ _ hat ?_
      unfold daemonOwn
      rw [hclaimed]
      simp
    | shutdown | control => exact hg.elim
  have hnext := c.toShared.next_le_called (M := machine cfg fuel) (t := t) (k := k) (w := w) hnew
  refine ⟨room_of_deals hd hi.capacity h.room hspawn, fun u hu => ?_, fun u hu => ?_,
    fun v k' p hv => ?_, queue_of_deals hd hqueue h.queue, ?_⟩
  · rcases mem_of_deals hd hg hu with hold | ⟨rfl, hloop⟩ | ⟨k', hf⟩
    · obtain ⟨hparty, hlt⟩ := h.staff u hold
      exact ⟨party_did hparty, lt_of_lt_of_le hlt hnext⟩
    · exact ⟨party_of_loop hloop, lt_of_lt_of_le (hH.safe u k _ hat).1 hnext⟩
    · exact ⟨party_of_forks hf, Shared.lt_next_of_forks hf⟩
  · exact count_of_deals hd hg hu (h.once u hu) fun k' hf hmem =>
      absurd (h.staff u hmem).2 (Nat.not_lt.mpr (hnew u k' hf))
  · intro hphase
    rcases (machine cfg fuel).threadsCalled_cases hv with ⟨hf, rfl⟩ | ⟨rfl, -, -⟩ | ⟨hvt, hv⟩
    · -- a worker just started has called nothing
      have hle := hnew v k' hf
      have hlt := (hH.safe t k _ hat).1
      have hown : Entry.own v (c.toShared.called (machine cfg fuel) t k o r w).trace = [] := by
        refine Entry.own_eq_nil fun e he heq => ?_
        rcases List.mem_cons.mp he with rfl | he
        · have heq : t = v := heq
          exact Nat.not_lt.mpr hle (heq ▸ hlt)
        · exact Nat.not_lt.mpr hle (heq ▸ hH.old e he)
      unfold daemonOwn at hphase
      rw [hown] at hphase
      exact absurd rfl hphase
    · refine mem_of_phase hd hk hg (h.own v k _ hat) ?_
      have hown : Entry.own v (c.toShared.called (machine cfg fuel) v k o r w).trace =
          ⟨o, r⟩ :: Entry.own v c.trace := Entry.own_did
      unfold daemonOwn at hphase
      rw [hown] at hphase
      exact hphase
    · have hown : Entry.own v (c.toShared.called (machine cfg fuel) t k o r w).trace =
          Entry.own v c.trace := Entry.own_did_of_ne hvt.symm
      unfold daemonOwn at hphase
      rw [hown] at hphase
      exact hk.holders v (h.own v k' p hv hphase) (.inl hvt)
  · rcases follows_of_deals hd hk.capacity (hi.capacity ▸ h.room) hspawn with heq | hstep
    · exact heq ▸ h.fair
    · exact hstep.inv h.fair

/-- A thread's end gives back the permit it has. -/
theorem tally_ended {p : Prog Resp (Option Task)} (hi : Inv cfg c.toShared)
    (h : Tally cfg c) (hat : c.threads t = some (k, p)) :
    Tally cfg { toShared := c.toShared.ended t k ((machine cfg fuel).leave t c.world)
                threads := Function.update c.threads t none } := by
  have hsub : ∀ u ∈ c.world.host.sched.holders.erase t, u ∈ c.world.host.sched.holders :=
    fun u hu => List.mem_of_mem_erase hu
  refine ⟨?_, fun u hu => ?_, fun u hu => ?_, fun v k' p hv hphase => ?_, h.queue, ?_⟩
  · exact le_trans List.length_erase_le h.room
  · obtain ⟨hparty, hlt⟩ := h.staff u (hsub u hu)
    refine ⟨?_, hlt⟩
    by_cases hloop : u = Daemon.dispatcher ∨ u = Daemon.reconciler
    · exact party_of_loop hloop
    · have hworking : working u c.trace = true := by
        simp only [party, Bool.or_eq_true, beq_iff_eq] at hparty
        exact hparty.resolve_left hloop
      -- a worker has one permit, and this is its end
      have hut : t ≠ u := by
        rintro rfl
        have hone := h.once t (hi.workers t hworking).2
        have hcount : 0 < (c.world.host.sched.holders.erase t).count t :=
          List.count_pos_iff.mpr hu
        rw [List.count_erase_self] at hcount
        omega
      have hstill : working u (.ended t k c.world :: c.trace) = true := by
        rw [working, Bool.and_eq_true, bne_iff_ne]
        exact ⟨hut, hworking⟩
      simp only [party, Bool.or_eq_true]
      exact .inr hstill
  · exact le_trans (List.erase_sublist.count_le u) (h.once u hu)
  · by_cases hvt : v = t
    · subst hvt
      simp only [Function.update_self] at hv
      cases hv
    · simp only [Function.update_of_ne hvt] at hv
      exact (List.mem_erase_of_ne hvt).mpr (h.own v k' p hv hphase)
  · have hfollow : Follows (view c.world) (view ((machine cfg fuel).leave t c.world)) :=
      follows_erase (hi.capacity ▸ h.room)
    rcases hfollow with heq | hstep
    · exact heq ▸ h.fair
    · exact hstep.inv h.fair

theorem queue_of_env {e : Env} (h : Env.step e s = some s') : s'.queue = s.queue := by
  cases e with
  | host e => cases e <;> cases h <;> rfl
  | graceful => cases h; rfl
  | force =>
    simp only [Env.step] at h
    split at h <;> cases h
    rfl

theorem tally_start (h₀ : Start cfg fuel c₀) (hqueue : c₀.world.queue = []) : Tally cfg c₀ := by
  refine ⟨?_, fun u hu => ?_, fun u hu => ?_, fun t k p hat hphase => ?_, fun x hx => ?_, ?_⟩
  · rw [h₀.holders]
    exact Nat.zero_le _
  · rw [h₀.holders] at hu
    cases hu
  · rw [h₀.holders]
    exact Nat.zero_le _
  · unfold daemonOwn at hphase
    rw [h₀.trace] at hphase
    exact absurd rfl hphase
  · rw [hqueue] at hx
    cases hx
  · unfold view
    rw [h₀.capacity, h₀.holders, hqueue]
    exact ⟨rfl, fun w hw => absurd hw List.not_mem_nil, fun ⟨w, hw, _⟩ =>
      absurd hw List.not_mem_nil⟩

theorem tally_run (h₀ : Start cfg fuel c₀) (hqueue : c₀.world.queue = [])
    (hr : (machine cfg fuel).Run Meets c₀ c) : Tally cfg c := by
  induction hr with
  | start => exact tally_start h₀ hqueue
  | @step c c' e hr hs hm ih =>
    have hi := inv_run h₀ hr
    have hr' := hr.step hs hm
    cases hs with
    | call hat hq hnew =>
      exact tally_called hi (sound_habits.run (start_habits h₀) hr) ih hat hq hnew
        (sound_habits.line (start_habits h₀) hr' (List.suffix_refl _))
        (sound_queueing.line (start_queueing h₀) hr' (List.suffix_refl _))
    | @again t k k' hat =>
      refine ⟨ih.room, ih.staff, ih.once, fun u k'' p hu hphase => ?_, ih.queue, ih.fair⟩
      by_cases hut : u = t
      · subst hut
        exact ih.own u k _ hat hphase
      · simp only [Function.update_of_ne hut] at hu
        exact ih.own u k'' p hu hphase
    | exit hat => exact tally_ended hi ih hat
    | crash hat hw => cases hw
    | @env e w hw =>
      have hsched : w.host.sched = c.world.host.sched := kept_of_env hw
      have hqueue : w.queue = c.world.queue := queue_of_env hw
      have hview : view w = view c.world := by
        unfold view
        rw [hsched, hqueue]
      exact ⟨hsched ▸ ih.room, hsched ▸ ih.staff, hsched ▸ ih.once, hsched ▸ ih.own,
        hqueue ▸ ih.queue, hview ▸ ih.fair⟩

/-! ## The figure -/

variable {s : State}

theorem request_of_waiter {w : Semaphore.Waiter Tid} (h : w ∈ (view s).waiters) :
    (w.who, w.wants) ∈ s.queue := by
  rw [← Semaphore.serve_requests s.host.sched.capacity s.host.sched.holders s.queue]
  exact List.mem_map.mpr ⟨w, h, rfl⟩

theorem exists_waiter {x : Tid × ℕ} (h : x ∈ s.queue) :
    ∃ w ∈ (view s).waiters, w.who = x.1 ∧ w.wants = x.2 := by
  rw [← Semaphore.serve_requests s.host.sched.capacity s.host.sched.holders s.queue] at h
  obtain ⟨w, hw, rfl⟩ := List.mem_map.mp h
  exact ⟨w, hw, rfl, rfl⟩

/-- The coordinator is no loop and no worker. -/
theorem party_coordinator (hi : Inv cfg c.toShared) : party c.trace coordinator = false := by
  rw [← Bool.not_eq_true]
  intro h
  simp only [party, Bool.or_eq_true, beq_iff_eq] at h
  rcases h with (h | h) | h
  · cases h
  · cases h
  · exact absurd (hi.workers _ h).2 (by decide)

/-- Every permit owned is a party's, unless the coordinator waits. -/
theorem party_of_owner (h : Tally cfg c) (hnot : ¬ Waiting c.world)
    (hu : u ∈ (view c.world).owners) : party c.trace u = true := by
  rcases List.mem_append.mp hu with hu | hu
  · exact (h.staff u hu).1
  · obtain ⟨w, hw, hu⟩ := List.mem_flatMap.mp hu
    obtain rfl := List.eq_of_mem_replicate hu
    have hrequest := request_of_waiter hw
    rcases h.queue _ hrequest with ⟨hloop, -⟩ | ⟨hcoordinator, -⟩
    · exact party_of_loop hloop
    · have hcoordinator : w.who = coordinator := hcoordinator
      exact absurd ⟨w.wants, hcoordinator ▸ hrequest⟩ hnot

/-- What is not available is owned. -/
theorem inFlight_eq_length (h : Tally cfg c) :
    (status cfg c.world).inFlight = (view c.world).owners.length ∧
      (view c.world).available + (view c.world).owners.length = cfg.maxConcurrency := by
  have htotal := h.fair.total
  have hlen := (view c.world).length_owners
  refine ⟨?_, by omega⟩
  show cfg.maxConcurrency - (view c.world).available = _
  omega

/-- Where the coordinator waits and has collected nothing, nothing is
available. -/
theorem available_of_waiting (hi : Inv cfg c.toShared) (h : Tally cfg c) (hwait : Waiting c.world)
    (hall : ∀ u ∈ (view c.world).owners, party c.trace u = true) :
    (view c.world).available = 0 := by
  obtain ⟨n, hn⟩ := hwait
  obtain ⟨w, hw, hwho, hwants⟩ := exists_waiter hn
  have hcount : n = permitCount cfg.maxConcurrency := by
    rcases h.queue _ hn with ⟨hloop, -⟩ | ⟨-, hcount⟩
    · rcases hloop with hloop | hloop <;> cases hloop
    · exact hcount
  have hgot : w.got = 0 := by
    by_contra hpos
    have howner : coordinator ∈ (view c.world).owners :=
      List.mem_append_right _ (List.mem_flatMap.mpr ⟨w, hw,
        List.mem_replicate.mpr ⟨hpos, hwho.symm⟩⟩)
    have hparty := hall _ howner
    rw [party_coordinator hi] at hparty
    cases hparty
  by_cases hzero : n = 0
  · -- no permits at all
    have hmax : cfg.maxConcurrency = 0 := by
      rw [hzero] at hcount
      unfold permitCount at hcount
      split at hcount <;> omega
    have htotal := (inFlight_eq_length h).2
    omega
  · have hwants : w.wants = n := hwants
    exact h.fair.wanting ⟨w, hw, by omega⟩

/-- **What `/status` says is in flight** is what the loops and the workers
have, when and only when no shutdown waits or there is nothing left for it
to collect. -/
theorem inFlight_eq_iff (h₀ : Start cfg fuel c₀) (hqueue : c₀.world.queue = [])
    (hr : (machine cfg fuel).Run (fun _ _ => True) c₀ c) :
    (status cfg c.world).inFlight = held c.toShared ↔
      ¬ Waiting c.world ∨ held c.toShared = cfg.maxConcurrency := by
  have hi := inv_run h₀ hr
  have h := tally_run h₀ hqueue hr
  obtain ⟨hlen, htotal⟩ := inFlight_eq_length h
  have hcount : held c.toShared ≤ (view c.world).owners.length := List.countP_le_length
  constructor
  · intro heq
    by_cases hwait : Waiting c.world
    · have hall : ∀ u ∈ (view c.world).owners, party c.trace u = true :=
        List.countP_eq_length.mp (heq.symm.trans hlen)
      have hnone := available_of_waiting hi h hwait hall
      exact .inr (by omega)
    · exact .inl hwait
  · rintro (hnot | hmax)
    · rw [hlen]
      exact (List.countP_eq_length.mpr fun u hu => party_of_owner h hnot hu).symm
    · omega

/-! ## A drain that waits for a job -/

/-- Two permits, no signal yet, and the sample job queued on GitHub. -/
def twoPool : Pool where
  world :=
    { host := Pause.sampleWorld
      queue := []
      graceful := false
      force := false
      exited := false }
  next := 5
  trace := []
  threads := threads sampleConfig 1

theorem twoPool_start : Start sampleConfig 1 twoPool := ⟨rfl, rfl, rfl, rfl, rfl⟩

/-- The answers of the sample, and the next thread for a worker. -/
def mintAnswers : (o : Op) → Oracle o
  | .host o => ({ sched := ⟨"42.job", 5⟩
                  hub := ⟨none, true, "", [], none, none, [sampleStatus]⟩ } : Answers).oracle o
  | .request => false
  | .enqueue _ | .granted _ | .graceful | .send _ | .drainOrForce _ | .exit => ()

/-- The reconciler starts a worker; then the signal comes, and the
coordinator queues. -/
def drainingSchedule : List (machine sampleConfig 1).Move :=
  .replicate 21 (.call 1 mintAnswers) ++ .env .graceful :: .replicate 3 (.call 3 mintAnswers)

theorem draining_sample :
    ((machine sampleConfig 1).follow (fun _ _ => true) drainingSchedule twoPool).map
      (fun c => (status sampleConfig c.world, held c.toShared, working 5 c.trace)) =
        some (⟨true, 2, 2⟩, 1, true) := by
  decide +kernel

/-- One job runs, and two are reported in flight. -/
theorem inFlight_while_draining :
    ∃ c, (machine sampleConfig 1).Run (fun _ _ => True) twoPool c ∧
      working 5 c.trace = true ∧ held c.toShared = 1 ∧
      (status sampleConfig c.world).inFlight = 2 := by
  obtain ⟨c, hc, heq⟩ := Option.map_eq_some_iff.mp draining_sample
  obtain ⟨hstatus, hheld, hworking⟩ : _ ∧ _ ∧ _ := by simpa only [Prod.mk.injEq] using heq
  exact ⟨c, (Machine.run_of_follow hc).mono fun _ _ _ => trivial, hworking, hheld,
    congrArg Status.inFlight hstatus⟩

theorem inFlight_eq_iff_sample :
    ∃ c, (machine sampleConfig 1).Run (fun _ _ => True) twoPool c ∧ working 5 c.trace = true ∧
      ((status sampleConfig c.world).inFlight = held c.toShared ↔
        ¬ Waiting c.world ∨ held c.toShared = sampleConfig.maxConcurrency) := by
  obtain ⟨c, hc, heq⟩ := Option.map_eq_some_iff.mp draining_sample
  obtain ⟨-, -, hworking⟩ : _ ∧ _ ∧ _ := by simpa only [Prod.mk.injEq] using heq
  have hr : (machine sampleConfig 1).Run (fun _ _ => True) twoPool c :=
    (Machine.run_of_follow hc).mono fun _ _ _ => trivial
  exact ⟨c, hr, hworking, inFlight_eq_iff twoPool_start rfl hr⟩

end Drain

end GhaConsumer

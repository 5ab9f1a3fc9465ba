import GhaConsumer.Interleave.Program
import Mathlib.Logic.Function.Basic
import Mathlib.Data.Nat.Notation

/-!
# Pools of programs

A machine says what each operation does to a shared world, one atomic
step at a time; a pool is a set of threads, each at some point of its
program, that take their steps in any order. A thread runs the body of
a task and, when the body returns another task, goes on with that one:
loops of the source that never end are tasks that return themselves.

A run keeps its own history: the trace lists every step taken with the
world it was taken in, so that "was claimed before" or "has since been
moved" are functions of the trace and no bookkeeping enters the
programs or the world.
-/

namespace Interleave

/-- The name of a thread. -/
abbrev Tid := ℕ

/-- What there is to interleave: the tasks and their programs, and what
the operations do. An `Oracle` settles what an operation leaves open (an
answer from outside, a failure); `step` is `none` where the operation
cannot go ahead, which is how a thread blocks. `env` are the moves of
the outside world, `leave` is what a thread's own end changes, and
`crash` what is left when it is killed. -/
structure Machine {Op : Type} (Resp : Op → Type) (Task World : Type) where
  body : Task → Prog Resp (Option Task)
  Oracle : Op → Type
  step : Tid → (o : Op) → Oracle o → World → Option (Resp o × World)
  /-- The thread an operation starts, with its task. -/
  forks : (o : Op) → Resp o → Option (Tid × Task)
  Env : Type
  env : Env → World → Option World
  leave : Tid → World → World
  crash : Tid → World → Option World

/-- One line of a run's history. -/
inductive Entry {Op : Type} (Resp : Op → Type) (Task World : Type) where
  /-- Thread `t`, at task `k`, called `o` in world `before` and got `r`. -/
  | did (t : Tid) (k : Task) (o : Op) (r : Resp o) (before : World)
  /-- Thread `t`, at task `k`, ended, by itself or killed. -/
  | ended (t : Tid) (k : Task) (before : World)

namespace Entry

variable {Op : Type} {Resp : Op → Type} {Task World : Type}

/-- Whose line it is. -/
def tid : Entry Resp Task World → Tid
  | did t .. => t
  | ended t .. => t

/-- The world before the line. -/
def before : Entry Resp Task World → World
  | did _ _ _ _ w => w
  | ended _ _ w => w

end Entry

/-- What the threads share, and the history. -/
structure Shared {Op : Type} (Resp : Op → Type) (Task World : Type) where
  world : World
  /-- No thread so far has a name from `next` on. -/
  next : Tid
  /-- The latest entry first. -/
  trace : List (Entry Resp Task World)

/-- A pool: the shared part, and where each thread stands. -/
structure Config {Op : Type} (Resp : Op → Type) (Task World : Type)
    extends Shared Resp Task World where
  threads : Tid → Option (Task × Prog Resp (Option Task))

variable {Op : Type} {Resp : Op → Type} {Task World : Type}

/-- The shared part after a call. -/
def Shared.called (s : Shared Resp Task World) (M : Machine Resp Task World) (t : Tid) (k : Task)
    (o : Op) (r : Resp o) (w : World) : Shared Resp Task World where
  world := w
  next := match M.forks o r with
    | some (u, _) => u + 1
    | none => s.next
  trace := .did t k o r s.world :: s.trace

/-- No thread started is above the next. -/
theorem Shared.lt_next_of_forks {s : Shared Resp Task World} {M : Machine Resp Task World}
    {t u : Tid} {k k' : Task} {o : Op} {r : Resp o} {w : World} (h : M.forks o r = some (u, k')) :
    u < (s.called M t k o r w).next := by
  simp only [Shared.called, h]
  exact Nat.lt_succ_self u

theorem Shared.next_le_called {s : Shared Resp Task World} {M : Machine Resp Task World}
    {t : Tid} {k : Task} {o : Op} {r : Resp o} {w : World}
    (h : ∀ u k', M.forks o r = some (u, k') → s.next ≤ u) : s.next ≤ (s.called M t k o r w).next := by
  cases hf : M.forks o r with
  | none => simp only [Shared.called, hf, Nat.le_refl]
  | some uk => exact Nat.le_trans (h uk.1 uk.2 hf) (Nat.le_of_lt (Shared.lt_next_of_forks hf))

/-- The shared part after a thread's end. -/
def Shared.ended (s : Shared Resp Task World) (t : Tid) (k : Task) (w : World) :
    Shared Resp Task World :=
  { s with world := w, trace := .ended t k s.world :: s.trace }

namespace Machine

variable (M : Machine Resp Task World)

/-- The threads after `t` called `o`: `t` goes on with the answer, and
the thread the call starts, if any, is at the start of its task. -/
def threadsCalled (th : Tid → Option (Task × Prog Resp (Option Task))) (t : Tid) (k : Task)
    {o : Op} (f : Resp o → Prog Resp (Option Task)) (r : Resp o) :
    Tid → Option (Task × Prog Resp (Option Task)) :=
  let th' := Function.update th t (some (k, f r))
  match M.forks o r with
  | some (u, k') => Function.update th' u (some (k', M.body k'))
  | none => th'

/-- After a call, a thread is the one the call started, or the caller
with the answer, or where it was. -/
theorem threadsCalled_cases {th : Tid → Option (Task × Prog Resp (Option Task))} {t u : Tid}
    {k k' : Task} {o : Op} {f : Resp o → Prog Resp (Option Task)} {r : Resp o}
    {p : Prog Resp (Option Task)} (h : M.threadsCalled th t k f r u = some (k', p)) :
    (M.forks o r = some (u, k') ∧ p = M.body k') ∨ (u = t ∧ k' = k ∧ p = f r) ∨
      (u ≠ t ∧ th u = some (k', p)) := by
  have hcaller : Function.update th t (some (k, f r)) u = some (k', p) →
      (u = t ∧ k' = k ∧ p = f r) ∨ (u ≠ t ∧ th u = some (k', p)) := by
    intro h
    rcases eq_or_ne u t with rfl | hut
    · rw [Function.update_self] at h; cases h; exact .inl ⟨rfl, rfl, rfl⟩
    · rw [Function.update_of_ne hut] at h; exact .inr ⟨hut, h⟩
  cases hf : M.forks o r with
  | none =>
    simp only [threadsCalled, hf] at h
    exact .inr (hcaller h)
  | some uk =>
    obtain ⟨u', k''⟩ := uk
    simp only [threadsCalled, hf] at h
    rcases eq_or_ne u u' with rfl | huu
    · rw [Function.update_self] at h; cases h; exact .inl ⟨rfl, rfl⟩
    · rw [Function.update_of_ne huu] at h; exact .inr (hcaller h)

/-- One step of a pool, with the line it adds to the history. -/
inductive Step : Config Resp Task World → Option (Entry Resp Task World) →
    Config Resp Task World → Prop
  /-- A thread makes the call its program stands at. -/
  | call {c : Config Resp Task World} {t : Tid} {k : Task} {o : Op}
      {f : Resp o → Prog Resp (Option Task)} {q : M.Oracle o} {r : Resp o} {w : World}
      (hat : c.threads t = some (k, .call o f)) (hq : M.step t o q c.world = some (r, w))
      (hnew : ∀ u k', M.forks o r = some (u, k') → c.next ≤ u) :
      Step c (some (.did t k o r c.world))
        { toShared := c.toShared.called M t k o r w, threads := M.threadsCalled c.threads t k f r }
  /-- A thread whose body has returned a task goes on with it. -/
  | again {c : Config Resp Task World} {t : Tid} {k k' : Task}
      (hat : c.threads t = some (k, .ret (some k'))) :
      Step c none { c with threads := Function.update c.threads t (some (k', M.body k')) }
  /-- A thread whose body has returned none ends. -/
  | exit {c : Config Resp Task World} {t : Tid} {k : Task}
      (hat : c.threads t = some (k, .ret none)) :
      Step c (some (.ended t k c.world))
        { toShared := c.toShared.ended t k (M.leave t c.world)
          threads := Function.update c.threads t none }
  /-- A thread is killed. -/
  | crash {c : Config Resp Task World} {t : Tid} {k : Task} {p : Prog Resp (Option Task)}
      {w : World} (hat : c.threads t = some (k, p)) (hw : M.crash t c.world = some w) :
      Step c (some (.ended t k c.world))
        { toShared := c.toShared.ended t k w, threads := Function.update c.threads t none }
  /-- The outside world moves. -/
  | env {c : Config Resp Task World} {e : M.Env} {w : World} (hw : M.env e c.world = some w) :
      Step c none { c with world := w }

/-- A run from `c₀` all of whose steps meet a condition on the shared
state before the step and the line the step adds. -/
inductive Run (Meets : Shared Resp Task World → Entry Resp Task World → Prop)
    (c₀ : Config Resp Task World) : Config Resp Task World → Prop
  | start : Run Meets c₀ c₀
  | step {c c' : Config Resp Task World} {e : Option (Entry Resp Task World)} :
      Run Meets c₀ c → M.Step c e c' → (∀ x, e = some x → Meets c.toShared x) → Run Meets c₀ c'

variable {M}
variable {Meets Meets' : Shared Resp Task World → Entry Resp Task World → Prop}
variable {c₀ c c' : Config Resp Task World}

theorem Run.trans (h : M.Run Meets c₀ c) (h' : M.Run Meets c c') : M.Run Meets c₀ c' := by
  induction h' with
  | start => exact h
  | step _ hs hm ih => exact ih.step hs hm

theorem Run.mono (h : M.Run Meets c₀ c) (hM : ∀ s x, Meets s x → Meets' s x) :
    M.Run Meets' c₀ c := by
  induction h with
  | start => exact .start
  | step _ hs hm ih => exact ih.step hs fun x hx => hM _ _ (hm x hx)

/-! ## Runs by schedule

A schedule names, step by step, the thread that moves and what the
oracle answers; `follow` computes where it leads. -/

variable (M) in
/-- One entry of a schedule. -/
inductive Move where
  | call (t : Tid) (q : (o : Op) → M.Oracle o)
  | again (t : Tid)
  | exit (t : Tid)
  | crash (t : Tid)
  | env (e : M.Env)

variable (M) in
/-- The pool after one move and the line it adds, if the move is
possible. -/
def move (c : Config Resp Task World) :
    M.Move → Option (Option (Entry Resp Task World) × Config Resp Task World)
  | .call t q =>
    match c.threads t with
    | some (k, .call o f) =>
      match M.step t o (q o) c.world with
      | some (r, w) =>
        let c' : Config Resp Task World :=
          { toShared := c.toShared.called M t k o r w
            threads := M.threadsCalled c.threads t k f r }
        match M.forks o r with
        | some (u, _) => if c.next ≤ u then some (some (.did t k o r c.world), c') else none
        | none => some (some (.did t k o r c.world), c')
      | none => none
    | _ => none
  | .again t =>
    match c.threads t with
    | some (_, .ret (some k')) =>
      some (none, { c with threads := Function.update c.threads t (some (k', M.body k')) })
    | _ => none
  | .exit t =>
    match c.threads t with
    | some (k, .ret none) =>
      some (some (.ended t k c.world),
        { toShared := c.toShared.ended t k (M.leave t c.world)
          threads := Function.update c.threads t none })
    | _ => none
  | .crash t =>
    match c.threads t, M.crash t c.world with
    | some (k, _), some w =>
      some (some (.ended t k c.world),
        { toShared := c.toShared.ended t k w, threads := Function.update c.threads t none })
    | _, _ => none
  | .env e => (M.env e c.world).map fun w => (none, { c with world := w })

/-- A move is a step. -/
theorem step_of_move {m : M.Move} {e : Option (Entry Resp Task World)}
    (h : M.move c m = some (e, c')) : M.Step c e c' := by
  cases m with
  | call t q =>
    simp only [move] at h
    split at h
    · rename_i k o f hat
      split at h
      · rename_i r w hq
        split at h
        · rename_i u k' hf
          split at h
          · rename_i hle
            cases h
            refine .call hat hq fun u' k'' hu => ?_
            rw [hf] at hu
            cases hu
            exact hle
          · cases h
        · rename_i hf
          cases h
          exact .call hat hq fun u' k'' hu => by rw [hf] at hu; cases hu
      · cases h
    · cases h
  | again t =>
    simp only [move] at h
    split at h
    · rename_i hat; cases h; exact .again hat
    · cases h
  | exit t =>
    simp only [move] at h
    split at h
    · rename_i hat; cases h; exact .exit hat
    · cases h
  | crash t =>
    simp only [move] at h
    split at h
    · rename_i hat hw; cases h; exact .crash hat hw
    · cases h
  | env e =>
    simp only [move, Option.map_eq_some_iff] at h
    obtain ⟨w, hw, h⟩ := h
    cases h
    exact .env hw

variable (M) in
/-- The pool after a schedule, if every move is possible in its turn and
every step passes the test `ok`. -/
def follow (ok : Shared Resp Task World → Entry Resp Task World → Bool) :
    List M.Move → Config Resp Task World → Option (Config Resp Task World)
  | [], c => some c
  | m :: ms, c =>
    match M.move c m with
    | some (some x, c') => if ok c.toShared x then follow ok ms c' else none
    | some (none, c') => follow ok ms c'
    | none => none

/-- Where a schedule leads is where a run leads. -/
theorem run_of_follow {ok : Shared Resp Task World → Entry Resp Task World → Bool}
    {ms : List M.Move} (h : M.follow ok ms c = some c') :
    M.Run (fun s x => ok s x = true) c c' := by
  induction ms generalizing c with
  | nil => cases h; exact .start
  | cons m ms ih =>
    simp only [follow] at h
    split at h
    · rename_i x c₁ hm
      split at h
      · rename_i hok
        exact (Run.start.step (step_of_move hm) fun y hy => by cases hy; exact hok).trans (ih h)
      · cases h
    · rename_i c₁ hm
      exact (Run.start.step (step_of_move hm) fun y hy => by cases hy).trans (ih h)
    · cases h

end Machine

end Interleave

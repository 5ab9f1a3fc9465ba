import GhaConsumer.Daemon.Slots

/-!
# The daemon — who owns a slot

A claim is owned by the loop that made it until a worker is started for
it, and by the worker until it moves it away; each owner holds a permit
of its own. From what each task makes sure of at its own calls
(`Slots.sound_habits`) it follows, whatever the order of the calls, that
no claim has two owners, that the claim of an owner stands with the bytes
it had when its worker was started, and that there are no more owners
than permits (`claims_owned`). The collector is the one that empties
slots it does not own, and is assumed to spare those owned.
-/

namespace GhaConsumer

namespace Ownership

open Interleave Trace Daemon Slots
open Pause (Own acquires parts claims phase)

variable {cfg : Config} {fuel : ℕ} {o : Op} {r : Resp o} {t u v : Tid} {k : Task} {name : String}
variable {w : World} {τ : Daemon.History}

/-! ## Who works at what -/

/-- The job a task works at. -/
def job : Task → Option (String × WorkflowJob)
  | .work cur event => some (cur, event)
  | _ => none

/-- The thread is the one of the task's loop, or else none of the loops'. -/
def Place (t : Tid) : Task → Prop
  | .dispatch | .permit _ | .prepare _ => t = dispatcher
  | .reconcile => t = reconciler
  | .gc => t = collector
  | .work .. => 3 ≤ t

/-- What a task may go on with: a task of the same loop, and a loop always
does. -/
structure Next (k : Task) (next : Option Task) : Prop where
  loop : next = none → (job k).isSome
  place : ∀ k', next = some k' → job k = none ∧ job k' = none ∧ ∀ t, Place t k → Place t k'

theorem next_some {k' : Task} (hk : job k = none) (hk' : job k' = none)
    (h : ∀ t, Place t k → Place t k') : Next k (some k') := by
  refine ⟨nofun, fun k'' heq => ?_⟩
  cases heq
  exact ⟨hk, hk', h⟩

theorem body_next (k : Task) : (body cfg fuel k).Returns (Next k) := by
  cases k with
  | dispatch => exact .step fun name => next_some rfl rfl fun _ h => h
  | permit name =>
    refine (Prog.returns_true _).bind fun permit _ => ?_
    cases permit <;> exact next_some rfl rfl fun _ h => h
  | prepare name =>
    exact (Prog.returns_true _).bind fun _ _ => (Prog.returns_true _).bind fun _ _ =>
      next_some rfl rfl fun _ h => h
  | reconcile =>
    refine .step fun _ => .step fun paused => ?_
    split
    · exact next_some rfl rfl fun _ h => h
    · exact (Prog.returns_true _).bind fun _ _ => next_some rfl rfl fun _ h => h
  | gc => exact .step fun _ => (Prog.returns_true _).bind fun _ _ => next_some rfl rfl fun _ h => h
  | work cur event => exact (Prog.returns_true _).bind fun _ _ => ⟨fun _ => rfl, nofun⟩

theorem working_of_forks {k' : Task} (h : forks o r = some (u, k')) :
    working v (.did t k o r w :: τ) = if u = v then job k' else working v τ := by
  cases o with
  | sched o =>
    cases o with
    | spawnJob cur event =>
      cases h
      rfl
    | _ => cases h
  | _ => cases h

/-- Only the thread a call starts is affected. -/
theorem working_did_of_ne (h : ∀ u k', forks o r = some (u, k') → u ≠ v) :
    working v (.did t k o r w :: τ) = working v τ := by
  cases hf : forks o r with
  | none =>
    cases o with
    | sched o =>
      cases o with
      | spawnJob cur event => cases hf
      | _ => rfl
    | _ => rfl
  | some uk => rw [working_of_forks hf, if_neg (h uk.1 uk.2 hf)]

/-- Where a thread is, and what it works at. -/
structure Stands (s : Daemon.State) (t : Tid) (k : Task) (p : Prog Resp (Option Task)) : Prop where
  old : t < s.next
  place : Place t k
  job : working t s.trace = job k
  next : p.Returns (Next k)

/-- Only workers end. -/
theorem Stands.ends {s : Daemon.State} (h : Stands s t k (.ret none)) : 3 ≤ t := by
  have hplace := h.place
  have hjob := h.next.loop rfl
  cases k with
  | work => exact hplace
  | _ => cases hjob

/-- The threads of a pool are where their tasks say, and work at what the
history says. -/
structure Staffed (c : Pool) : Prop where
  room : 3 ≤ c.next
  stands : ∀ t k p, c.threads t = some (k, p) → Stands c.toShared t k p
  workers : ∀ t, working t c.trace ≠ none → 3 ≤ t ∧ t < c.next

variable {c₀ c c' : Pool} {Meets : Daemon.State → Line → Prop}

theorem staffed_start (h₀ : Daemon.Start cfg fuel c₀) : Staffed c₀ where
  room := h₀.next.ge
  stands t k p ht := by
    rw [h₀.threads] at ht
    have hloop : ∀ k, t < 3 → Place t k → job k = none →
        Stands c₀.toShared t k (body cfg fuel k) := fun k hlt hplace hjob =>
      ⟨by rw [h₀.next]; exact hlt, hplace, by rw [h₀.trace, hjob]; rfl, body_next k⟩
    unfold Daemon.loops at ht
    split at ht <;> cases ht
    · exact hloop .dispatch (by decide) rfl rfl
    · exact hloop .reconcile (by decide) rfl rfl
    · exact hloop .gc (by decide) rfl rfl
  workers t ht := by
    rw [h₀.trace] at ht
    exact absurd rfl ht

/-- A call leaves its thread and the others in their places, and puts the
thread it starts in its own. -/
theorem Staffed.called {f : Resp o → Prog Resp (Option Task)} {w' : World} (h : Staffed c)
    (hat : c.threads t = some (k, .call o f)) (hnew : ∀ u k', forks o r = some (u, k') → c.next ≤ u) :
    Staffed { toShared := c.toShared.called (machine cfg fuel) t k o r w'
              threads := (machine cfg fuel).threadsCalled c.threads t k f r } := by
  have hnext : c.next ≤ (c.toShared.called (machine cfg fuel) t k o r w').next :=
    c.toShared.next_le_called hnew
  have hkeep : ∀ v, v < c.next →
      working v (c.toShared.called (machine cfg fuel) t k o r w').trace = working v c.trace :=
    fun v hv => working_did_of_ne fun u k' hf huv =>
      absurd (hnew u k' hf) (by rw [huv]; exact Nat.not_le.mpr hv)
  have hfork : ∀ u k', forks o r = some (u, k') → 3 ≤ u ∧
      u < (c.toShared.called (machine cfg fuel) t k o r w').next :=
    fun u k' hf => ⟨h.room.trans (hnew u k' hf), Shared.lt_next_of_forks hf⟩
  refine ⟨h.room.trans hnext, fun v k' p hv => ?_, fun v hv => ?_⟩
  · rcases (machine cfg fuel).threadsCalled_cases hv with ⟨hf, rfl⟩ | ⟨rfl, rfl, rfl⟩ | ⟨-, hv⟩
    · have hf : forks o r = some (v, k') := hf
      obtain ⟨hplace, hlt⟩ := hfork v k' hf
      refine ⟨hlt, ?_, (working_of_forks hf).trans (if_pos rfl), body_next k'⟩
      cases o with
      | sched o =>
        cases o with
        | spawnJob cur event =>
          cases hf
          exact hplace
        | _ => cases hf
      | _ => cases hf
    · have hst := h.stands v k' _ hat
      exact ⟨hst.old.trans_le hnext, hst.place, (hkeep v hst.old).trans hst.job, hst.next r⟩
    · have hst := h.stands v k' p hv
      exact ⟨hst.old.trans_le hnext, hst.place, (hkeep v hst.old).trans hst.job, hst.next⟩
  · by_cases hf : ∃ k', forks o r = some (v, k')
    · obtain ⟨k', hf⟩ := hf
      exact hfork v k' hf
    · have hsame := working_did_of_ne (t := t) (k := k) (r := r) (w := c.world) (τ := c.trace)
        (v := v) fun u k' hu huv => hf ⟨k', huv ▸ hu⟩
      obtain ⟨hge, hlt⟩ := h.workers v (hsame ▸ hv)
      exact ⟨hge, hlt.trans_le hnext⟩

/-- A thread that is gone leaves the others where they are. -/
theorem Staffed.drop (h : Staffed c) :
    Staffed { toShared := c.toShared.ended t k w, threads := Function.update c.threads t none } := by
  refine ⟨h.room, fun v k' p' hv => ?_, fun v hv => h.workers v fun hnone => hv ?_⟩
  · by_cases hvt : v = t
    · simp only [hvt, Function.update_self] at hv
      cases hv
    · simp only [Function.update_of_ne hvt] at hv
      have hst := h.stands v k' p' hv
      exact ⟨hst.old, hst.place, (if_neg (Ne.symm hvt)).trans hst.job, hst.next⟩
  · show (if t = v then none else working v c.trace) = none
    rw [hnone, ite_self]

theorem staffed_step {e : Option Line} (h : Staffed c) (hs : (machine cfg fuel).Step c e c') :
    Staffed c' := by
  cases hs with
  | call hat _ hnew => exact h.called hat hnew
  | @again t k k' hat =>
    refine ⟨h.room, fun v k'' p hv => ?_, h.workers⟩
    by_cases hvt : v = t
    · simp only [hvt, Function.update_self] at hv
      cases hv
      have hst := h.stands t k _ hat
      obtain ⟨hk, hk', hplace⟩ := hst.next.place _ rfl
      rw [hvt]
      exact ⟨hst.old, hplace t hst.place, by rw [hk', hst.job, hk], body_next _⟩
    · simp only [Function.update_of_ne hvt] at hv
      exact h.stands v k'' p hv
  | exit | crash => exact h.drop
  | env => exact ⟨h.room, fun v k p hv => ⟨(h.stands v k p hv).old, (h.stands v k p hv).place,
      (h.stands v k p hv).job, (h.stands v k p hv).next⟩, h.workers⟩

theorem staffed_run (h₀ : Daemon.Start cfg fuel c₀) (hr : (machine cfg fuel).Run Meets c₀ c) :
    Staffed c := by
  induction hr with
  | start => exact staffed_start h₀
  | step _ hs _ ih => exact staffed_step ih hs

/-- A line of a run is of a thread in its place. -/
theorem place_of_line (h₀ : Daemon.Start cfg fuel c₀) (hr : (machine cfg fuel).Run Meets c₀ c)
    (hsuf : .did t k o r w :: τ <:+ c.trace) : Place t k := by
  obtain ⟨c₁, c₂, hr₁, -, -, hs, -⟩ := hr.exists_of_line h₀.trace hsuf
  cases hs with
  | call hat => exact ((staffed_run h₀ hr₁).stands t k _ hat).place

/-! ## Who holds what -/

/-- The entry of `cur/` a thread holds: a loop the one it has claimed, a
worker the one it was started with. -/
def holding (t : Tid) (τ : Daemon.History) : Option String :=
  if t = dispatcher ∨ t = reconciler then held none (Entry.own t τ)
  else (working t τ).bind fun job => held (some job.1) (Entry.own t τ)

theorem holding_loop (h : t = dispatcher ∨ t = reconciler) :
    holding t τ = held none (Entry.own t τ) := if_pos h

theorem holding_of_not_loop (h : ¬ (t = dispatcher ∨ t = reconciler)) :
    holding t τ = (working t τ).bind fun job => held (some job.1) (Entry.own t τ) := if_neg h

theorem not_loop (h : 3 ≤ t) : ¬ (t = dispatcher ∨ t = reconciler) := by
  rintro (rfl | rfl) <;> revert h <;> decide

/-- What a thread at a task holds is a matter of its calls. -/
theorem Stands.holding {s : Daemon.State} {p : Prog Resp (Option Task)} (h : Stands s t k p)
    (hk : k ≠ .gc) : holding t s.trace = held (entry k) (Entry.own t s.trace) := by
  have hplace := h.place
  cases k with
  | dispatch | permit | prepare => exact holding_loop (.inl hplace)
  | reconcile => exact holding_loop (.inr hplace)
  | gc => exact absurd rfl hk
  | work cur event =>
    rw [holding_of_not_loop (not_loop hplace), h.job]
    rfl

theorem Staffed.lt_of_holding (h : Staffed c) (hn : holding t c.trace = some name) :
    t < c.next := by
  by_cases hloop : t = dispatcher ∨ t = reconciler
  · refine lt_of_lt_of_le ?_ h.room
    rcases hloop with rfl | rfl <;> decide
  · refine (h.workers t fun hnone => ?_).2
    rw [holding_of_not_loop hloop, hnone] at hn
    cases hn

theorem held_cases {base : Option String} {e : Event Resp} {σ : Own}
    (h : held base (e :: σ) = some name) :
    claims e = some name ∨
      (Pause.Keeps e ∧ vacates e ≠ some name ∧ held base σ = some name) := by
  unfold held at h
  split at h
  · rename_i n hc
    exact .inl (hc.trans h)
  · rename_i hc
    split at h
    · cases h
    · rename_i hkeep
      simp only [Bool.or_eq_true, not_or, Bool.not_eq_true] at hkeep
      refine .inr ⟨⟨hkeep.1.1, hkeep.1.2, hc⟩, fun hv => ?_, h⟩
      have hsame := hkeep.2
      rw [hv, h] at hsame
      simp at hsame

/-- What a thread holds after a call it has just claimed, or held before,
or is started with. -/
inductive Gains (t : Tid) (o : Op) (r : Resp o) (v : Tid) (name : String) (τ : Daemon.History) :
    Prop
  | claims : v = t → claims ⟨o, r⟩ = some name → Gains t o r v name τ
  | keeps : holding v τ = some name →
      (v = t → parts ⟨o, r⟩ = false ∧ vacates ⟨o, r⟩ ≠ some name) → Gains t o r v name τ
  | starts (event : WorkflowJob) : forks o r = some (v, .work name event) → Gains t o r v name τ

/-- A call of a run, with what is known of its caller, of its start, and of
what it does. -/
structure Called (cfg : Config) (c : Pool) (t : Tid) (k : Task) (o : Op) (r : Resp o)
    (w' : World) : Prop where
  staffed : Staffed c
  stands : ∃ p, Stands c.toShared t k p
  step : ∃ q, step cfg.codec t o q c.world = some (r, w')
  fresh : ∀ u k', forks o r = some (u, k') → c.next ≤ u
  /-- No line is of a thread to come. -/
  silent : ∀ u, c.next ≤ u → Entry.own u c.trace = []
  slots : Slots.Good cfg k (Entry.own t c.trace) ⟨o, r⟩
  pause : Pause.Good t k (Entry.own t c.trace) ⟨o, r⟩

/-- What is known of the call a run ends in. -/
theorem called_of_run {f : Resp o → Prog Resp (Option Task)} {q : Oracle o} {w' : World}
    (h₀ : Daemon.Start cfg fuel c₀) (hr : (machine cfg fuel).Run Meets c₀ c)
    (hat : c.threads t = some (k, .call o f)) (hq : step cfg.codec t o q c.world = some (r, w'))
    (hnew : ∀ u k', forks o r = some (u, k') → c.next ≤ u)
    (hm : Meets c.toShared (.did t k o r c.world)) : Called cfg c t k o r w' := by
  have hstaff := staffed_run h₀ hr
  have hr' := hr.step (Machine.Step.call hat hq hnew) fun x hx => Option.some.inj hx ▸ hm
  refine ⟨hstaff, ⟨_, hstaff.stands t k _ hat⟩, ⟨q, hq⟩, hnew, fun u hle => ?_,
    Slots.good_line (w := c.world) h₀ hr' (List.suffix_refl _),
    Pause.good_line (w := c.world) h₀ hr' (List.suffix_refl _)⟩
  refine Entry.own_eq_nil fun e he heq => ?_
  have := (Slots.sound_habits.run (Slots.start_habits h₀) hr).old e he
  rw [heq] at this
  exact Nat.not_lt.mpr hle this

theorem Called.gains {w' : World} (hc : Called cfg c t k o r w')
    (h : holding v (.did t k o r c.world :: c.trace) = some name) :
    Gains t o r v name c.trace := by
  obtain ⟨p, hst⟩ := hc.stands
  by_cases hf : ∃ k', forks o r = some (v, k')
  · -- a thread just started holds what it was started with
    obtain ⟨k', hf⟩ := hf
    have hle := hc.fresh v k' hf
    have hvt : t ≠ v := Nat.ne_of_lt (hst.old.trans_le hle)
    rw [holding_of_not_loop (not_loop (hc.staffed.room.trans hle)), working_of_forks hf, if_pos rfl,
      Entry.own_did_of_ne hvt, hc.silent v hle] at h
    cases k' with
    | work cur event =>
      obtain rfl : cur = name := Option.some.inj h
      exact .starts event hf
    | _ => cases h
  · have hworking : working v (.did t k o r c.world :: c.trace) = working v c.trace :=
      working_did_of_ne fun u k' hu huv => hf ⟨k', huv ▸ hu⟩
    by_cases hvt : t = v
    · subst hvt
      have hbase : ∃ base, held base (⟨o, r⟩ :: Entry.own t c.trace) = some name ∧
          (held base (Entry.own t c.trace) = some name → holding t c.trace = some name) := by
        by_cases hloop : t = dispatcher ∨ t = reconciler
        · rw [holding_loop hloop, Entry.own_did] at h
          exact ⟨none, h, fun hσ => (holding_loop hloop).trans hσ⟩
        · rw [holding_of_not_loop hloop, hworking, Entry.own_did] at h
          obtain ⟨job, hjob, h⟩ := Option.bind_eq_some_iff.mp h
          refine ⟨_, h, fun hσ => ?_⟩
          rw [holding_of_not_loop hloop, hjob]
          exact hσ
      obtain ⟨base, hheld, hback⟩ := hbase
      rcases held_cases hheld with hcl | ⟨hkeeps, hv, hσ⟩
      · exact .claims rfl hcl
      · exact .keeps (hback hσ) fun _ => ⟨hkeeps.2.1, hv⟩
    · refine .keeps ?_ fun hv => absurd hv.symm hvt
      unfold holding at h ⊢
      rwa [hworking, Entry.own_did_of_ne hvt] at h

/-- Who starts a worker has its claim. -/
theorem Called.starts {w' : World} {event : WorkflowJob} (hc : Called cfg c t k o r w')
    (hf : forks o r = some (v, .work name event)) :
    o = .sched (.spawnJob name event) ∧ holding t c.trace = some name := by
  cases o with
  | sched o =>
    cases o with
    | spawnJob cur event' =>
      cases hf
      rw [holding_loop (Pause.eq_of_loops (hc.pause.loop (.inr (.inl rfl))))]
      exact ⟨rfl, (hc.slots.spawned _ _ _ rfl).1⟩
    | _ => cases hf
  | _ => cases hf

/-! ## What a call does to a slot -/

section Slot

variable {q : Oracle o} {w' : World} {id : JobId}

theorem slot_ne_of_tmp {p : Path} (h : Staged cfg k p) : slot id ≠ p := by
  rintro rfl
  obtain ⟨-, job, nonce, hp⟩ := h
  exact tmpName_ne_jobFileName job cfg.pid nonce id (congrArg Files.Path.name hp).symm

/-- A slot is as it was, or a claim has filled it, or has left it. -/
theorem slot_of_step (h : step cfg.codec t o q w = some (r, w')) (ht : Tidy cfg k o) :
    w'.fs.tree.ino (slot id) = w.fs.tree.ino (slot id) ∨
      claims ⟨o, r⟩ = some (jobFileName id) ∨ vacates ⟨o, r⟩ = some (jobFileName id) := by
  cases o with
  | fs o =>
    obtain ⟨s, hs, rfl⟩ := step_fs h
    by_cases hp : slot id ∈ o.paths
    swap
    · exact .inl (Files.ino_of_step hs hp)
    cases o with
    | rename a b =>
      rcases r with e | ⟨⟨⟩⟩
      · exact .inl (by rw [Files.rename_error hs])
      · rcases List.mem_pair.mp hp with rfl | rfl
        · exact .inr (.inr rfl)
        · cases ht.2
    | renameNoClobber a b =>
      rcases r with e | ⟨⟨⟩⟩
      · exact .inl (by rw [Files.renameNoClobber_error hs])
      · rcases List.mem_pair.mp hp with rfl | rfl
        · exact .inr (.inr rfl)
        · exact .inr (.inl rfl)
    | removeFile a =>
      obtain rfl := List.mem_singleton.mp hp
      rcases r with e | ⟨⟨⟩⟩
      · exact .inl (by rw [Files.removeFile_error hs])
      · exact .inr (.inr rfl)
    | createNew a =>
      obtain rfl := List.mem_singleton.mp hp
      rcases ht with ht | ht | ht
      · exact absurd rfl (slot_ne_of_tmp ht)
      · cases ht
      · cases ht
    | write a data =>
      obtain rfl := List.mem_singleton.mp hp
      cases ht
    | _ => cases hp
  | _ => exact .inl (by rw [fs_of_step h (by simp)])

theorem moved_of_claims {o : Files.Op Dir String} {r : Files.Resp o}
    (hc : claims ⟨.fs o, r⟩ = some name) : ∃ a, Files.moved o r = some (a, curPath name) := by
  unfold claims at hc
  cases hm : Files.moved o r with
  | none => simp [hm] at hc
  | some ab =>
    obtain ⟨a, dir, n⟩ := ab
    simp only [hm] at hc
    split at hc
    · rename_i hcur
      obtain rfl : dir = .cur := hcur
      obtain rfl : n = name := Option.some.inj hc
      exact ⟨a, rfl⟩
    · cases hc

/-- A claim fills a slot that was free. -/
theorem slot_of_claims (h : step cfg.codec t o q w = some (r, w')) (ht : Tidy cfg k o)
    (hc : claims ⟨o, r⟩ = some (jobFileName id)) :
    w.fs.tree.ino (slot id) = none ∧ (w'.fs.tree.ino (slot id)).isSome := by
  cases o with
  | fs o =>
    obtain ⟨s, hs, rfl⟩ := step_fs h
    obtain ⟨a, hm⟩ := moved_of_claims hc
    unfold Files.moved at hm
    split at hm <;> cases hm
    · obtain ⟨⟨i, hi⟩, hfree, rfl⟩ := Files.renameNoClobber_ok hs
      refine ⟨hfree, ?_⟩
      rw [Files.State.tree_move, Files.Tree.ino_move_to hi]
      rfl
    · cases ht.2
  | _ => cases hc

end Slot

/-! ## No claim has two owners -/

/-- The entry of `cur/` the collector takes away. -/
def collected : Line → Option String
  | .did _ .gc o r _ => vacates ⟨o, r⟩
  | _ => none

/-- The collector takes away no entry that a thread holds. -/
def spares (s : Daemon.State) (x : Line) : Bool :=
  match collected x with
  | none => true
  | some name => (List.range s.next).all fun t => holding t s.trace != some name

theorem holding_of_spares {s : Daemon.State} {x : Line} (h : spares s x = true)
    (hx : collected x = some name) (ht : t < s.next) : holding t s.trace ≠ some name := by
  unfold spares at h
  rw [hx] at h
  simpa using List.all_eq_true.mp h t (List.mem_range.mpr ht)

/-- The claims held stand, and have one owner each. -/
structure Owned (s : Daemon.State) : Prop where
  stands : ∀ t id, holding t s.trace = some (jobFileName id) →
    (s.world.fs.tree.ino (slot id)).isSome
  unique : ∀ t u id, holding t s.trace = some (jobFileName id) →
    holding u s.trace = some (jobFileName id) → t = u

section Step

variable {w' : World} {id : JobId}

/-- The entry a thread goes on holding is not taken away. -/
theorem Owned.not_vacates (hown : Owned c.toShared) (hc : Called cfg c t k o r w')
    (hm : spares c.toShared (.did t k o r c.world) = true)
    (hv : holding v c.trace = some (jobFileName id))
    (hkeep : v = t → vacates ⟨o, r⟩ ≠ some (jobFileName id)) :
    vacates ⟨o, r⟩ ≠ some (jobFileName id) := by
  intro hvac
  by_cases hk : k = .gc
  · subst hk
    exact holding_of_spares hm hvac (hc.staffed.lt_of_holding hv) hv
  · -- it is the caller's own, and that is `v`
    obtain ⟨p, hst⟩ := hc.stands
    have hholds := (hst.holding hk).trans (hc.slots.vacated id hvac hk)
    exact hkeep (hown.unique v t id hv hholds) hvac

/-- A claim made is of a slot that nobody held. -/
theorem Owned.not_holding_of_claims (hown : Owned c.toShared) (hc : Called cfg c t k o r w')
    (hcl : claims ⟨o, r⟩ = some (jobFileName id)) : holding v c.trace ≠ some (jobFileName id) := by
  intro hv
  obtain ⟨q, hq⟩ := hc.step
  have hstands := hown.stands v id hv
  rw [(slot_of_claims hq hc.slots.tidy hcl).1] at hstands
  cases hstands

/-- The slot of a claim that goes on being held is left alone. -/
theorem Owned.still (hown : Owned c.toShared) (hc : Called cfg c t k o r w')
    (hm : spares c.toShared (.did t k o r c.world) = true)
    (hv : holding v c.trace = some (jobFileName id))
    (hkeep : v = t → vacates ⟨o, r⟩ ≠ some (jobFileName id)) :
    w'.fs.tree.ino (slot id) = c.world.fs.tree.ino (slot id) := by
  obtain ⟨q, hq⟩ := hc.step
  rcases slot_of_step hq hc.slots.tidy with hsame | hcl | hvac
  · exact hsame
  · exact absurd hv (hown.not_holding_of_claims hc hcl)
  · exact absurd hvac (hown.not_vacates hc hm hv hkeep)

theorem Owned.stands_called (hown : Owned c.toShared) (hc : Called cfg c t k o r w')
    (hm : spares c.toShared (.did t k o r c.world) = true)
    (hg : Gains t o r v (jobFileName id) c.trace) : (w'.fs.tree.ino (slot id)).isSome := by
  cases hg with
  | claims _ hcl =>
    obtain ⟨q, hq⟩ := hc.step
    exact (slot_of_claims hq hc.slots.tidy hcl).2
  | keeps hv hkeep =>
    rw [hown.still hc hm hv fun h => (hkeep h).2]
    exact hown.stands v id hv
  | starts event hf =>
    obtain ⟨rfl, ht⟩ := hc.starts hf
    rw [hown.still hc hm ht fun _ h => by cases h]
    exact hown.stands t id ht

theorem Owned.unique_called (hown : Owned c.toShared) (hc : Called cfg c t k o r w')
    (hg : Gains t o r v (jobFileName id) c.trace) (hg' : Gains t o r u (jobFileName id) c.trace) :
    v = u := by
  -- a thread that keeps the claim is not the one that has just parted with it
  have hparts : ∀ {v u event}, holding v c.trace = some (jobFileName id) →
      (v = t → parts ⟨o, r⟩ = false ∧ vacates ⟨o, r⟩ ≠ some (jobFileName id)) →
      forks o r ≠ some (u, .work (jobFileName id) event) := by
    intro v u event hv hkeep hf
    obtain ⟨rfl, ht⟩ := hc.starts hf
    cases (hkeep (hown.unique v t id hv ht)).1
  cases hg with
  | claims hvt hcl =>
    cases hg' with
    | claims hut _ => exact hvt.trans hut.symm
    | keeps hu _ => exact absurd hu (hown.not_holding_of_claims hc hcl)
    | starts event hf => exact absurd (hc.starts hf).2 (hown.not_holding_of_claims hc hcl)
  | keeps hv hkeep =>
    cases hg' with
    | claims _ hcl => exact absurd hv (hown.not_holding_of_claims hc hcl)
    | keeps hu _ => exact hown.unique v u id hv hu
    | starts event hf => exact absurd hf (hparts hv hkeep)
  | starts event hf =>
    cases hg' with
    | claims _ hcl => exact absurd (hc.starts hf).2 (hown.not_holding_of_claims hc hcl)
    | keeps hu hkeep => exact absurd hf (hparts hu hkeep)
    | starts event' hf' =>
      rw [hf] at hf'
      cases hf'
      rfl

theorem Owned.called (hown : Owned c.toShared) (hc : Called cfg c t k o r w')
    (hm : spares c.toShared (.did t k o r c.world) = true) :
    Owned (c.toShared.called (machine cfg fuel) t k o r w') where
  stands _ _ hv := hown.stands_called hc hm (hc.gains hv)
  unique _ _ _ hv hu := hown.unique_called hc (hc.gains hv) (hc.gains hu)

end Step

/-! ## Nobody writes to a slot -/

/-- The file thread `t` has just made at `p`, and may go on to write, is
there still, or in the archive. -/
structure Made (t : Tid) (p : Path) (i : Files.Ino) (s : FileState) : Prop where
  old : i < s.tree.next
  new : p.dir ≠ .new
  slot : ∀ id, slot id ≠ p
  cur : p.dir = .cur → t = reconciler
  paths : ∀ q, s.tree.ino q = some i → q = p ∨ q.dir.isArchive = true

section Files

variable {o : Files.Op Dir String} {r : Files.Resp o} {q : Files.Oracle String}
variable {s s' : FileState} {p : Path} {i : Files.Ino} {id : JobId}

theorem made_of_createNew {i : Files.Ino}
    (h : Files.step t (.createNew p) q s = some (.ok i, s')) (ht : Tidy cfg k (.fs (.createNew p)))
    (hplace : Place t k) : Made t p i s' := by
  simp only [Files.step] at h
  split at h
  · cases h
  · split at h <;> cases h
    refine ⟨Nat.lt_succ_self _, ?_, fun id => ?_, fun hcur => ?_, fun a ha => ?_⟩
    · rcases ht with ⟨-, job, nonce, rfl⟩ | hp | hp
      · simp
      · rw [hp]; decide
      · rw [hp]; decide
    · rcases ht with ht | hp | hp
      · exact slot_ne_of_tmp ht
      · rintro rfl; cases hp
      · rintro rfl; cases hp
    · rcases ht with ⟨rfl, -⟩ | hp | hp
      · exact hplace
      · rw [hp] at hcur; cases hcur
      · rw [hp] at hcur; cases hcur
    · exact .inl (Files.Tree.path_unique ha (Files.Tree.ino_create_self ..))

/-- What others do leaves it so. -/
theorem Made.step (hi : Made t p i s) (h : Files.step u o q s = some (r, s'))
    (ht : Tidy cfg k (.fs o)) (hplace : Place u k) (hne : u ≠ t) : Made t p i s' := by
  refine ⟨hi.old.trans_le (Files.next_le_of_step h), hi.new, hi.slot, hi.cur, fun a ha => ?_⟩
  cases Files.change_of_step h with
  | same _ htree => exact hi.paths a (htree ▸ ha)
  | @create _ _ b n _ _ _ =>
    rw [Files.State.tree_create] at ha
    by_cases hab : a = b
    · subst hab
      rw [Files.Tree.ino_create_self] at ha
      exact absurd hi.old (by rw [← Option.some.inj ha]; exact Nat.lt_irrefl _)
    · rw [Files.Tree.ino_create_of_ne hab] at ha
      exact hi.paths a ha
  | unlink b =>
    rw [Files.State.tree_unlink] at ha
    by_cases hab : a = b
    · subst hab
      rw [Files.Tree.ino_unlink_self] at ha
      cases ha
    · rw [Files.Tree.ino_unlink_of_ne hab] at ha
      exact hi.paths a ha
  | @move _ _ b b' _ hm _ =>
    rw [Files.State.tree_move] at ha
    rcases Files.Tree.ino_of_move ha with ⟨rfl, hb⟩ | ha
    · -- a file made is moved by its own thread, or into the archive
      unfold Files.moved at hm
      split at hm <;> cases hm
      · rcases ht with ⟨-, harch⟩ | ⟨name, rfl, rfl | ⟨rfl, job, nonce, rfl⟩⟩
        · exact .inr harch
        · rcases hi.paths _ hb with rfl | harch
          · exact absurd rfl hi.new
          · cases harch
        · rcases hi.paths _ hb with rfl | harch
          · exact absurd (hplace.trans (hi.cur rfl).symm) hne
          · cases harch
      · exact .inr ht.2
    · exact hi.paths a ha
  | overwrite | stamp => exact hi.paths a ha

/-- A call that writes the file its thread has just made, or the reasons
of failures, writes no claim. -/
theorem not_rewrites (hslot : s.tree.ino (slot id) = some i) (ht : Tidy cfg k (.fs o))
    (hmade : ∀ j data, o = .writeAll j data → ∃ p, Made t p j s) : ¬ o.Rewrites s i := by
  intro hw
  cases o with
  | writeAll j data =>
    obtain rfl : i = j := hw
    obtain ⟨p, hp⟩ := hmade i data rfl
    rcases hp.paths _ hslot with heq | harch
    · exact hp.slot id heq
    · cases harch
  | write a data =>
    obtain rfl := Files.Tree.path_unique hslot hw
    cases ht
  | _ => exact hw.elim

end Files

/-- What stood in a worker's slot when it was started. -/
def startedOn (u : Tid) : Daemon.History → Option (Files.Kind × Files.Bytes)
  | [] => none
  | .did _ _ (.sched (.spawnJob cur _)) v w :: τ =>
    if v = u then w.contents (curPath cur) else startedOn u τ
  | _ :: τ => startedOn u τ

theorem startedOn_did_of_ne (h : ∀ u k', forks o r = some (u, k') → u ≠ v) :
    startedOn v (.did t k o r w :: τ) = startedOn v τ := by
  cases o with
  | sched o =>
    cases o with
    | spawnJob cur event => exact if_neg (h r _ rfl)
    | _ => rfl
  | _ => rfl

/-- Workers are started by their claims' names, a file just made is no
claim, and the claim a worker holds is as it was when it was started. -/
structure Kept (s : Daemon.State) : Prop where
  named : ∀ u cur event, working u s.trace = some (cur, event) →
    cur = jobFileName event.workflowJob.id
  made : ∀ t p i σ, Entry.own t s.trace = ⟨.fs (.createNew p), .ok i⟩ :: σ →
    Made t p i s.world.fs
  bytes : ∀ u cur event, working u s.trace = some (cur, event) →
    holding u s.trace = some cur → s.world.contents (curPath cur) = startedOn u s.trace

section Bytes

variable {w' : World} {id : JobId}

/-- A slot left alone holds what it held. -/
theorem Kept.contents (hkept : Kept c.toShared) (hc : Called cfg c t k o r w')
    (hstill : w'.fs.tree.ino (slot id) = c.world.fs.tree.ino (slot id)) :
    w'.contents (slot id) = c.world.contents (slot id) := by
  obtain ⟨q, hq⟩ := hc.step
  unfold World.contents
  rw [hstill]
  cases hi : c.world.fs.tree.ino (slot id) with
  | none => rfl
  | some i =>
    cases o with
    | fs o =>
      obtain ⟨s, hs, rfl⟩ := step_fs hq
      have hnot : ¬ o.Rewrites c.world.fs i := not_rewrites hi hc.slots.tidy fun j data ho => by
        obtain ⟨p, σ, hown⟩ := hc.slots.written j data (congrArg Op.fs ho)
        exact ⟨p, hkept.made t p j σ hown⟩
      obtain ⟨hdata, hkind⟩ := Files.data_of_step hs (Files.Tree.lt_next_of_ino hi) hnot
      rw [Option.map_some, Option.map_some, hdata, hkind]
    | _ => rw [fs_of_step hq (by simp)]

theorem Kept.called (hkept : Kept c.toShared) (hown : Owned c.toShared)
    (hc : Called cfg c t k o r w') (hm : spares c.toShared (.did t k o r c.world) = true) :
    Kept (c.toShared.called (machine cfg fuel) t k o r w') := by
  obtain ⟨p₀, hst⟩ := hc.stands
  obtain ⟨q, hq⟩ := hc.step
  have hjob : ∀ {u cur event}, working u (.did t k o r c.world :: c.trace) = some (cur, event) →
      forks o r = some (u, .work cur event) ∨
        (working u c.trace = some (cur, event) ∧
          startedOn u (.did t k o r c.world :: c.trace) = startedOn u c.trace) := by
    intro u cur event hu
    by_cases hf : ∃ k', forks o r = some (u, k')
    · obtain ⟨k', hf⟩ := hf
      rw [working_of_forks hf, if_pos rfl] at hu
      cases k' with
      | work cur' event' =>
        cases hu
        exact .inl hf
      | _ => cases hu
    · have hne : ∀ v k', forks o r = some (v, k') → v ≠ u := fun v k' hv hvu => hf ⟨k', hvu ▸ hv⟩
      rw [working_did_of_ne hne] at hu
      exact .inr ⟨hu, startedOn_did_of_ne hne⟩
  have hnamed : ∀ u cur event, working u (.did t k o r c.world :: c.trace) = some (cur, event) →
      cur = jobFileName event.workflowJob.id := by
    intro u cur event hu
    rcases hjob hu with hf | ⟨hu, -⟩
    · obtain ⟨rfl, -⟩ := hc.starts hf
      exact (hc.slots.spawned cur event r rfl).2
    · exact hkept.named u cur event hu
  refine ⟨hnamed, fun u p i σ hu => ?_, fun u cur event hu hh => ?_⟩
  · show Made u p i w'.fs
    by_cases hut : t = u
    · subst hut
      simp only [Shared.called, Entry.own_did] at hu
      cases hu
      obtain ⟨s, hs, rfl⟩ := step_fs hq
      exact made_of_createNew hs hc.slots.tidy hst.place
    · simp only [Shared.called, Entry.own_did_of_ne hut] at hu
      have hmade := hkept.made u p i σ hu
      cases o with
      | fs o =>
        obtain ⟨s, hs, rfl⟩ := step_fs hq
        exact hmade.step hs hc.slots.tidy hst.place hut
      | _ => rwa [fs_of_step hq (by simp)]
  · obtain rfl := hnamed u cur event hu
    show w'.contents (slot event.workflowJob.id) = startedOn u (.did t k o r c.world :: c.trace)
    rcases hjob hu with hf | ⟨hbefore, hstarted⟩
    · obtain ⟨rfl, ht⟩ := hc.starts hf
      cases hf
      refine (hkept.contents hc (hown.still hc hm ht fun _ h => by cases h)).trans ?_
      exact (if_pos rfl).symm
    · rw [hstarted]
      cases hc.gains hh with
      | claims hut hcl =>
        -- workers make no claims
        subst hut
        have hloop := Pause.eq_of_loops (hc.pause.loop (.inr (.inr (by rw [hcl]; simp))))
        exact absurd hloop (not_loop (hc.staffed.workers u (by rw [hbefore]; simp)).1)
      | keeps hv hkeep =>
        rw [hkept.contents hc (hown.still hc hm hv fun h => (hkeep h).2)]
        exact hkept.bytes u _ event hbefore hv
      | starts event' hf =>
        have hle := hc.fresh u _ hf
        exact absurd (hc.staffed.workers u (by rw [hbefore]; simp)).2 (Nat.not_lt.mpr hle)

end Bytes

/-! ## Permits -/

/-- What a call of `t` does to who holds a permit. -/
inductive Deals (t : Tid) (s : Sched.State) : (o : Op) → Resp o → List Tid → Prop
  | took {o : Op} {r : Resp o} : acquires ⟨o, r⟩ = true → s.holders.length < s.capacity →
      Deals t s o r (t :: s.holders)
  | released (r : Resp (.sched .release)) : Deals t s (.sched .release) r (s.holders.erase t)
  | spawned (cur : String) (event : WorkflowJob) (u : Tid) :
      Deals t s (.sched (.spawnJob cur event)) u (u :: s.holders.erase t)
  | still {o : Op} {r : Resp o} : acquires ⟨o, r⟩ = false → parts ⟨o, r⟩ = false →
      Deals t s o r s.holders

theorem deals_of_step {q : Oracle o} {w' : World} (h : step cfg.codec t o q w = some (r, w')) :
    w'.sched.capacity = w.sched.capacity ∧ Deals t w.sched o r w'.sched.holders := by
  cases o with
  | sched o =>
    obtain ⟨s, hs, rfl⟩ := step_sched h
    cases o with
    | acquire =>
      simp only [Sched.step] at hs
      split at hs <;> cases hs
      exact ⟨rfl, .took rfl ‹_›⟩
    | tryAcquire =>
      simp only [Sched.step] at hs
      split at hs <;> cases hs
      · exact ⟨rfl, .took rfl ‹_›⟩
      · exact ⟨rfl, .still rfl rfl⟩
    | release =>
      cases hs
      exact ⟨rfl, .released _⟩
    | spawnJob cur event =>
      cases hs
      exact ⟨rfl, .spawned cur event _⟩
    | waitUnpaused =>
      simp only [Sched.step] at hs
      split at hs <;> cases hs
      exact ⟨rfl, .still rfl rfl⟩
    | lockArchive =>
      simp only [Sched.step] at hs
      split at hs <;> cases hs
      exact ⟨rfl, .still rfl rfl⟩
    | unlockArchive =>
      cases hs
      refine ⟨?_, ?_⟩ <;> dsimp only <;> split <;> first | rfl | exact .still rfl rfl
    | recv | isPaused | sleep | log =>
      cases hs
      exact ⟨rfl, .still rfl rfl⟩
  | fs o | lima o | hub o =>
    obtain ⟨⟨r', s⟩, hs, heq⟩ := Option.map_eq_some_iff.mp h
    cases heq
    exact ⟨rfl, .still rfl rfl⟩

/-- No more permits are held than there are, and each worker holds one, as
does a loop past its acquire. -/
structure Permits (cfg : Config) (s : Daemon.State) : Prop where
  capacity : s.world.sched.capacity = cfg.maxConcurrency
  room : s.world.sched.holders.length ≤ cfg.maxConcurrency
  workers : ∀ t, working t s.trace ≠ none → t ∈ s.world.sched.holders
  loops : ∀ t, t = dispatcher ∨ t = reconciler → phase (Entry.own t s.trace) ≠ .idle →
    t ∈ s.world.sched.holders

section Permits

variable {w' : World}

theorem Permits.called (h : Permits cfg c.toShared) (hc : Called cfg c t k o r w') :
    Permits cfg (c.toShared.called (machine cfg fuel) t k o r w') := by
  obtain ⟨q, hq⟩ := hc.step
  obtain ⟨hcap, hd⟩ := deals_of_step hq
  have hloop : acquires ⟨o, r⟩ = true ∨ parts ⟨o, r⟩ = true → t = dispatcher ∨ t = reconciler :=
    fun hor => Pause.eq_of_loops (hc.pause.loop (hor.imp_right .inl))
  -- who gives a worker its permit has one
  have hspawn : ∀ cur event, o = .sched (.spawnJob cur event) → t ∈ c.world.sched.holders := by
    rintro cur event rfl
    refine h.loops t (hloop (.inr rfl)) ?_
    rw [hc.pause.claimed cur event r rfl]
    simp
  -- a permit that is not the caller's stays where it is
  have hother : ∀ {v}, v ≠ t → v ∈ c.world.sched.holders → v ∈ w'.sched.holders := by
    intro v hvt hv
    generalize w'.sched.holders = holders at hd
    cases hd with
    | took => exact List.mem_cons_of_mem _ hv
    | released => exact (List.mem_erase_of_ne hvt).mpr hv
    | spawned => exact List.mem_cons_of_mem _ ((List.mem_erase_of_ne hvt).mpr hv)
    | still => exact hv
  refine ⟨hcap.trans h.capacity, ?_, fun v hv => ?_, fun v hv hph => ?_⟩
  · have herase := List.length_erase_le (l := c.world.sched.holders) (a := t)
    have hroom := h.room
    have hcapacity := h.capacity
    show w'.sched.holders.length ≤ cfg.maxConcurrency
    generalize w'.sched.holders = holders at hd
    cases hd with
    | took _ hlt =>
      rw [List.length_cons]
      omega
    | released => omega
    | spawned cur event u =>
      have hmem := hspawn cur event rfl
      have hlen := List.length_erase_of_mem hmem
      have hpos := List.length_pos_of_mem hmem
      rw [List.length_cons]
      omega
    | still => exact hroom
  · show v ∈ w'.sched.holders
    by_cases hf : ∃ k', forks o r = some (v, k')
    · obtain ⟨k', hf⟩ := hf
      generalize w'.sched.holders = holders at hd
      cases o with
      | sched o =>
        cases o with
        | spawnJob cur event =>
          cases hf
          cases hd with
          | took hacq => cases hacq
          | spawned => exact List.mem_cons_self
          | still _ hparts => cases hparts
        | _ => cases hf
      | _ => cases hf
    · have hsame := working_did_of_ne (t := t) (k := k) (r := r) (w := c.world) (τ := c.trace)
        (v := v) fun u k' hu huv => hf ⟨k', huv ▸ hu⟩
      have hold : working v c.trace ≠ none := hsame ▸ hv
      have hmem := h.workers v hold
      by_cases hvt : v = t
      · subst hvt
        have hnot := not_loop (hc.staffed.workers v hold).1
        generalize w'.sched.holders = holders at hd
        cases hd with
        | took => exact List.mem_cons_of_mem _ hmem
        | released => exact absurd (hloop (.inr rfl)) hnot
        | spawned => exact absurd (hloop (.inr rfl)) hnot
        | still => exact hmem
      · exact hother hvt hmem
  · show v ∈ w'.sched.holders
    by_cases hvt : v = t
    · subst hvt
      simp only [Shared.called, Entry.own_did] at hph
      generalize w'.sched.holders = holders at hd
      rcases Pause.phase_ne_idle hc.pause hph with hacq | ⟨hparts, hbefore⟩
      · cases hd with
        | took => exact List.mem_cons_self
        | released => cases hacq
        | spawned => cases hacq
        | still hno =>
          rw [hacq] at hno
          cases hno
      · have hmem := h.loops v hv hbefore
        cases hd with
        | took => exact List.mem_cons_of_mem _ hmem
        | released => cases hparts
        | spawned => cases hparts
        | still => exact hmem
    · simp only [Shared.called, Entry.own_did_of_ne (Ne.symm hvt)] at hph
      exact hother hvt (h.loops v hv hph)

end Permits

theorem phase_of_held {σ : Own} (h : held none σ = some name) : phase σ = .claimed name := by
  induction σ with
  | nil => cases h
  | cons e σ ih =>
    rcases held_cases h with hcl | ⟨hkeeps, -, hσ⟩
    · exact Pause.phase_of_claims hcl
    · rw [Pause.phase_of_keeps hkeeps, ih hσ]
      simp

/-- Who holds a claim holds a permit. -/
theorem Permits.mem_of_owner {s : Daemon.State} (h : Permits cfg s)
    (ht : working t s.trace ≠ none ∨ holding t s.trace ≠ none) : t ∈ s.world.sched.holders := by
  by_cases hw : working t s.trace = none
  · obtain ⟨name, hh⟩ := Option.ne_none_iff_exists'.mp (ht.resolve_left (not_not.mpr hw))
    by_cases hloop : t = dispatcher ∨ t = reconciler
    · rw [holding_loop hloop] at hh
      exact h.loops t hloop (by rw [phase_of_held hh]; simp)
    · rw [holding_of_not_loop hloop, hw] at hh
      cases hh
  · exact h.workers t hw

/-! ## Runs -/

/-- Everything that holds of ownership. -/
structure Inv (cfg : Config) (s : Daemon.State) : Prop where
  owned : Owned s
  kept : Kept s
  permits : Permits cfg s

theorem holding_ended (h : holding v (.ended t k w :: τ) = some name) :
    holding v τ = some name := by
  by_cases hloop : v = dispatcher ∨ v = reconciler
  · rw [holding_loop hloop] at h ⊢
    exact h
  · rw [holding_of_not_loop hloop] at h ⊢
    obtain ⟨job, hjob, h⟩ := Option.bind_eq_some_iff.mp h
    have hjob : (if t = v then none else working v τ) = some job := hjob
    split at hjob
    · cases hjob
    · rw [hjob]
      exact h

theorem working_ended {x : String × WorkflowJob} (h : working v (.ended t k w :: τ) = some x) :
    v ≠ t ∧ working v τ = some x := by
  have h : (if t = v then none else working v τ) = some x := h
  split at h
  · cases h
  · exact ⟨Ne.symm ‹_›, h⟩

/-- A task's end drops its own permit and nothing else. -/
theorem Inv.ended (h : Inv cfg c.toShared) (ht : 3 ≤ t) :
    Inv cfg (c.toShared.ended t k (World.leave t c.world)) where
  owned :=
    { stands := fun v id hv => h.owned.stands v id (holding_ended hv)
      unique := fun v u id hv hu => h.owned.unique v u id (holding_ended hv) (holding_ended hu) }
  kept :=
    { named := fun u cur event hu => h.kept.named u cur event (working_ended hu).2
      made := fun u p i σ hu => by
        obtain ⟨hold, hnew, hslot, hcur, hpaths⟩ := h.kept.made u p i σ hu
        exact ⟨hold, hnew, hslot, hcur, hpaths⟩
      bytes := fun u cur event hu hh =>
        h.kept.bytes u cur event (working_ended hu).2 (holding_ended hh) }
  permits :=
    { capacity := h.permits.capacity
      room := List.length_erase_le.trans h.permits.room
      workers := fun v hv => by
        obtain ⟨x, hx⟩ := Option.ne_none_iff_exists'.mp hv
        obtain ⟨hvt, hx⟩ := working_ended hx
        exact (List.mem_erase_of_ne hvt).mpr (h.permits.workers v (by rw [hx]; simp))
      loops := fun v hv hph => by
        refine (List.mem_erase_of_ne ?_).mpr (h.permits.loops v hv hph)
        rintro rfl
        exact not_loop ht hv }

/-- The outside touches neither slots nor permits. -/
theorem Inv.env (h : Inv cfg c.toShared) (e : Env) :
    Inv cfg { c.toShared with world := e.step c.world } := by
  have hino : ∀ {p : Path}, p.dir ≠ .new →
      (e.step c.world).fs.tree.ino p = c.world.fs.tree.ino p := fun hp => e.ino_step hp
  have hcontents : ∀ id, (e.step c.world).contents (slot id) = c.world.contents (slot id) := by
    intro id
    unfold World.contents
    rw [hino (by simp)]
    cases hi : c.world.fs.tree.ino (slot id) with
    | none => rfl
    | some i =>
      rw [Option.map_some, Option.map_some, e.node_step (Files.Tree.lt_next_of_ino hi)]
  have hsched : (e.step c.world).sched.capacity = c.world.sched.capacity ∧
      (e.step c.world).sched.holders = c.world.sched.holders := by
    cases e <;> exact ⟨rfl, rfl⟩
  refine ⟨⟨fun v id hv => ?_, h.owned.unique⟩, ⟨h.kept.named, fun u p i σ hu => ?_,
    fun u cur event hu hh => ?_⟩, ⟨hsched.1.trans h.permits.capacity, ?_, fun v hv => ?_,
    fun v hv hph => ?_⟩⟩
  · show ((e.step c.world).fs.tree.ino (slot id)).isSome
    rw [hino (by simp)]
    exact h.owned.stands v id hv
  · have hmade := h.kept.made u p i σ hu
    refine ⟨hmade.old.trans_le e.next_le_step, hmade.new, hmade.slot, hmade.cur, fun q hq => ?_⟩
    exact hmade.paths q (e.ino_of_step hq hmade.old)
  · obtain rfl := h.kept.named u cur event hu
    exact (hcontents _).trans (h.kept.bytes u _ event hu hh)
  · show (e.step c.world).sched.holders.length ≤ cfg.maxConcurrency
    rw [hsched.2]
    exact h.permits.room
  · show v ∈ (e.step c.world).sched.holders
    rw [hsched.2]
    exact h.permits.workers v hv
  · show v ∈ (e.step c.world).sched.holders
    rw [hsched.2]
    exact h.permits.loops v hv hph

theorem inv_start (h₀ : Daemon.Start cfg fuel c₀) : Inv cfg c₀.toShared := by
  have hholding : ∀ v, holding v c₀.trace = none := by
    intro v
    rw [h₀.trace]
    unfold holding
    split <;> rfl
  have hworking : ∀ v, working v c₀.trace = none := by
    intro v
    rw [h₀.trace]
    rfl
  refine ⟨⟨fun v id hv => ?_, fun v u id hv => ?_⟩, ⟨fun u cur event hu => ?_, fun u p i σ hu => ?_,
    fun u cur event hu => ?_⟩, ⟨h₀.capacity, ?_, fun v hv => absurd (hworking v) hv,
    fun v _ hph => ?_⟩⟩
  · rw [hholding] at hv
    cases hv
  · rw [hholding] at hv
    cases hv
  · rw [hworking] at hu
    cases hu
  · rw [h₀.trace] at hu
    cases hu
  · rw [hworking] at hu
    cases hu
  · rw [h₀.holders]
    exact Nat.zero_le _
  · rw [h₀.trace] at hph
    exact absurd rfl hph

theorem inv_run (h₀ : Daemon.Start cfg fuel c₀)
    (hr : (machine cfg fuel).Run (fun s x => spares s x = true) c₀ c) : Inv cfg c.toShared := by
  induction hr with
  | start => exact inv_start h₀
  | @step c c' e hr hs hm ih =>
    cases hs with
    | @call t k o f q r w hat hq hnew =>
      have hspares := hm _ rfl
      have hc := called_of_run h₀ hr hat hq hnew hspares
      exact ⟨ih.owned.called hc hspares, ih.kept.called ih.owned hc hspares, ih.permits.called hc⟩
    | again => exact ih
    | @exit t k hat =>
      exact ih.ended ((staffed_run h₀ hr).stands t k _ hat).ends
    | crash _ hw => cases hw
    | @env e w hw =>
      cases hw
      exact ih.env e

/-- The worker of a job, with its claim still in `cur/`. -/
def Alive (t : Tid) (id : JobId) (τ : Daemon.History) : Prop :=
  ∃ cur event, working t τ = some (cur, event) ∧ event.workflowJob.id = id ∧
    holding t τ = some cur

/-- **Each claim has one owner, and each owner a permit**: where the
collector takes no entry that a thread holds, a job has one worker at a
time that has not finalized, whose claim stands in `cur/` with the bytes
it was started on; and those at work, with the loops that hold a claim,
are no more than the permits. -/
theorem claims_owned (h₀ : Daemon.Start cfg fuel c₀)
    (hr : (machine cfg fuel).Run (fun s x => spares s x = true) c₀ c) :
    (∀ id t u, Alive t id c.trace → Alive u id c.trace → t = u) ∧
    (∀ id t, Alive t id c.trace → (c.world.contents (slot id)).isSome ∧
      c.world.contents (slot id) = startedOn t c.trace) ∧
    (∀ ts : List Tid, ts.Nodup →
      (∀ t ∈ ts, working t c.trace ≠ none ∨ holding t c.trace ≠ none) →
        ts.length ≤ cfg.maxConcurrency) := by
  have hi := inv_run h₀ hr
  have halive : ∀ {id t}, Alive t id c.trace → ∃ event,
      working t c.trace = some (jobFileName id, event) ∧
        holding t c.trace = some (jobFileName id) := by
    rintro id t ⟨cur, event, hw, rfl, hh⟩
    obtain rfl := hi.kept.named t cur event hw
    exact ⟨event, hw, hh⟩
  refine ⟨fun id t u ht hu => ?_, fun id t ht => ?_, fun ts hnodup hts => ?_⟩
  · obtain ⟨_, _, hh⟩ := halive ht
    obtain ⟨_, _, hh'⟩ := halive hu
    exact hi.owned.unique t u id hh hh'
  · obtain ⟨event, hw, hh⟩ := halive ht
    refine ⟨?_, hi.kept.bytes t _ event hw hh⟩
    rw [World.contents, Option.isSome_map]
    exact hi.owned.stands t id hh
  · have hsub : ts ⊆ c.world.sched.holders := fun t ht => hi.permits.mem_of_owner (hts t ht)
    exact (List.subperm_of_subset hnodup hsub).length_le.trans hi.permits.room

/-! ## What ownership does not cover -/

/-- The collector takes away the claim of no worker; an entry claimed for
which no worker has been started it may. -/
def sparesWorkers (s : Daemon.State) (x : Line) : Bool :=
  match collected x with
  | none => true
  | some name => (List.range s.next).all fun t => (working t s.trace).all fun job => job.1 != name

/-- The entries claimed and neither moved away since nor handed to a
worker. -/
def unfinished : Daemon.History → List String
  | [] => []
  | .did _ _ (.sched (.spawnJob cur _)) _ _ :: τ => (unfinished τ).erase cur
  | .did _ _ o r _ :: τ =>
    match claims ⟨o, r⟩, vacates ⟨o, r⟩ with
    | some name, _ => name :: unfinished τ
    | none, some name => (unfinished τ).erase name
    | none, none => unfinished τ
  | .ended .. :: τ => unfinished τ

/-- The sample host comes there, with no worker's claim collected. -/
def Reached (c : Pool) : Prop :=
  ∃ c₀, Daemon.Start sampleConfig 1 c₀ ∧
    (machine sampleConfig 1).Run (fun s x => sparesWorkers s x = true) c₀ c

/-- `n` calls of thread `t`: the job is queued, and `name` is received. -/
def calls (t : Tid) (n : ℕ) (u : Tid) (name : String) (fails : Bool) :
    List (machine sampleConfig 1).Move :=
  .replicate n (.call t (Answers.oracle {
    fs := ⟨fails, 0, if t = collector then some ⟨name, .regular⟩ else none⟩
    sched := ⟨name, u⟩
    lima := ⟨.ok ⟨true, ""⟩, true, true, "x\n".toUTF8.toList, "", some "/vm", none⟩
    hub := ⟨none, true, "", [], none, none, [sampleStatus]⟩ }))

/-- The reconciler claims, and is slow; the collector expires the claim;
the reconciler starts the worker. -/
def collectedSchedule : List (machine sampleConfig 1).Move :=
  calls reconciler 20 3 "" false ++ .env (.tick 100000000000000) ::
    calls collector 8 3 "42.job" false ++ calls reconciler 1 3 "" false

/-- A worker moves its claim to the archive; before it is done the
reconciler mints the job again. -/
def overlapSchedule : List (machine sampleConfig 1).Move :=
  calls reconciler 21 3 "" false ++ calls 3 20 3 "" false ++ .again reconciler ::
    calls reconciler 21 4 "" false

/-- The dispatcher claims a file, rejects it, and fails to move it. -/
def rejectSchedule (name : String) : List (machine sampleConfig 1).Move :=
  calls dispatcher 1 3 name false ++ .again dispatcher :: calls dispatcher 3 3 name false ++
    .again dispatcher :: calls dispatcher 14 3 name false ++ calls dispatcher 1 3 name true ++
    calls dispatcher 2 3 name false ++ [.again dispatcher]

/-- Three files, none of which is its name's. -/
def rejectWorld : World :=
  .sample (["1.job", "2.job", "3.job"].map fun name => (⟨.new, name⟩, ⟨.regular, [10], 0⟩)) 0

theorem collected_sample :
    ((machine sampleConfig 1).follow sparesWorkers collectedSchedule
      (Pause.samplePool (.sample [] 0))).map
        (fun c => ((working 3 c.trace).map Prod.fst, c.world.contents (slot 42))) =
      some (some "42.job", none) := by
  decide +kernel

theorem overlap_sample :
    ((machine sampleConfig 1).follow sparesWorkers overlapSchedule
      (Pause.samplePool (.sample [] 0))).map
        (fun c => ((working 3 c.trace).map Prod.fst, (working 4 c.trace).map Prod.fst)) =
      some (some "42.job", some "42.job") := by
  decide +kernel

theorem reject_sample :
    ((machine sampleConfig 1).follow sparesWorkers
      (rejectSchedule "1.job" ++ rejectSchedule "2.job" ++ rejectSchedule "3.job")
        (Pause.samplePool rejectWorld)).map (fun c => (unfinished c.trace).length) = some 3 := by
  decide +kernel

/-- **Where only workers' claims are spared, and owners are not told from
tasks**: a worker is started on a claim collected before it was; a job has
a second worker while the first is still at its end; and claims that could
not be finalized outnumber the permits. -/
theorem claims_outlive_owners :
    (∃ c, Reached c ∧ (working 3 c.trace).map Prod.fst = some (jobFileName 42) ∧
      c.world.contents (slot 42) = none) ∧
    (∃ c, Reached c ∧ (working 3 c.trace).map Prod.fst = some (jobFileName 42) ∧
      (working 4 c.trace).map Prod.fst = some (jobFileName 42)) ∧
    ∃ c, Reached c ∧ sampleConfig.maxConcurrency < (unfinished c.trace).length := by
  refine ⟨?_, ?_, ?_⟩
  · obtain ⟨c, hc, heq⟩ := Option.map_eq_some_iff.mp collected_sample
    obtain ⟨hworking, hcontents⟩ := Prod.mk.inj heq
    exact ⟨c, ⟨_, Pause.samplePool_start rfl rfl rfl rfl, Machine.run_of_follow hc⟩, hworking,
      hcontents⟩
  · obtain ⟨c, hc, heq⟩ := Option.map_eq_some_iff.mp overlap_sample
    obtain ⟨hthree, hfour⟩ := Prod.mk.inj heq
    exact ⟨c, ⟨_, Pause.samplePool_start rfl rfl rfl rfl, Machine.run_of_follow hc⟩, hthree, hfour⟩
  · obtain ⟨c, hc, hlen⟩ := Option.map_eq_some_iff.mp reject_sample
    refine ⟨c, ⟨_, Pause.samplePool_start rfl rfl rfl rfl, Machine.run_of_follow hc⟩, ?_⟩
    rw [hlen]
    decide

theorem mint_sample :
    ((machine sampleConfig 1).follow spares (calls reconciler 21 3 "" false)
      (Pause.samplePool (.sample [] 0))).map
        (fun c => ((working 3 c.trace).map fun job => (job.1, job.2.workflowJob.id),
          holding 3 c.trace)) = some (some ("42.job", 42), some "42.job") := by
  decide +kernel

/-- A job minted is at work on its claim. -/
theorem claims_owned_mint :
    ∃ c, (machine sampleConfig 1).Run (fun s x => spares s x = true)
        (Pause.samplePool (.sample [] 0)) c ∧ Alive 3 42 c.trace ∧
      (c.world.contents (slot 42)).isSome ∧ c.world.contents (slot 42) = startedOn 3 c.trace := by
  obtain ⟨c, hc, heq⟩ := Option.map_eq_some_iff.mp mint_sample
  obtain ⟨hworking, hholding⟩ := Prod.mk.inj heq
  have hr := Machine.run_of_follow hc
  obtain ⟨⟨cur, event⟩, hw, hjob⟩ := Option.map_eq_some_iff.mp hworking
  obtain ⟨rfl, hid⟩ := Prod.mk.inj hjob
  have halive : Alive 3 42 c.trace := ⟨_, event, hw, hid, hholding⟩
  exact ⟨c, hr, halive,
    (claims_owned (Pause.samplePool_start rfl rfl rfl rfl) hr).2.1 42 3 halive⟩

end Ownership

end GhaConsumer

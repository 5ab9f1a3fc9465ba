import GhaConsumer.Interleave.RelyGuarantee
import GhaConsumer.Spool.Calls
import GhaConsumer.Spool.Pool

/-!
# Spool — expiry

`expire_stale_cur` judges a claim by its metadata and then archives
whatever stands at the path once it has the archive lock. The archive
prune looks again under the lock; this one does not, so a fresh claim
that has taken the path over meanwhile is archived in its place
(`expiry_moves_fresh_claim`). Where the file at the path is still the one
examined, only stale claims are moved (`expiry_moves_stale`).
-/

namespace GhaConsumer

namespace Spool

open Interleave Protocol

/-! ## What the history says -/

/-- A line that examines a file: the thread, the file and the
modification time it saw. -/
def examines : Line → Option (Tid × Option (Files.Ino × ℕ))
  | .did t _ (.fs (.lstat p)) (.ok md) w => some (t, (w.fs.tree.ino p).map fun i => (i, md.mtime))
  | _ => none

/-- What `t` saw when it last examined a file. -/
def examined (t : Tid) : List Line → Option (Files.Ino × ℕ)
  | [] => none
  | x :: τ =>
    match examines x with
    | some (u, seen) => if u = t then seen else examined t τ
    | none => examined t τ

/-- The file of `cur/` an expiry moves to `error/`, with its age limit. -/
def expired (x : Line) : Option (ℕ × Path) :=
  match x, moved x with
  | .did _ (.expire maxAgeSecs) _ _ _, some (p, p') =>
    if p.dir = .cur ∧ p'.dir = .error then some (maxAgeSecs, p) else none
  | _, _ => none

/-- The condition on an expiry's move: the file now at the path is the one
it examined, not modified since. -/
def movesExamined (s : State) (x : Line) : Bool :=
  match x, expired x with
  | .did t _ _ _ w, some (_, p) =>
    examined t s.trace == (w.fs.tree.ino p).map fun i => (i, (w.fs.tree.node i).mtime)
  | _, _ => true

/-- What an expiry moves is older than its limit. -/
def movesStale (x : Line) : Bool :=
  match x, expired x with
  | .did _ _ _ _ w, some (maxAgeSecs, p) =>
    (w.fs.tree.ino p).all fun i => maxAgeSecs < ageSecs w.fs.now (w.fs.tree.node i).mtime
  | _, _ => true

/-! ## The protocol -/

variable (cfg : Config) (fuel : ℕ)

/-- The protocol of expiries. -/
def expiryProtocol : Protocol (machine cfg fuel) where
  Meets s x := movesExamined s x = true
  inv x := ∀ e ∈ x.trace, movesStale e = true
  guar a x y := x.world.fs.now ≤ y.world.fs.now ∧
    ∀ t, a ≠ some t → examined t y.trace = examined t x.trace
  pre _ _ _ := True
  fin _ _ _ := True
  good _ _ := True

/-- `t` has examined a file that was too old at time `now`, now past. -/
def SawStale (t : Tid) (maxAgeSecs now : ℕ) (x : State) : Prop :=
  now ≤ x.world.fs.now ∧
    ∃ i mtime, examined t x.trace = some (i, mtime) ∧ maxAgeSecs < ageSecs now mtime

variable {cfg fuel}
variable {t : Tid} {k : Task} {m n : ℕ}

theorem examined_cons {x : Line} {τ : List Line} (h : examines x = none) :
    examined t (x :: τ) = examined t τ := by
  simp [examined, h]

theorem examined_of_ne {u : Tid} {o : Op} {r : Resp o} {w : World} {τ : List Line} (h : t ≠ u) :
    examined u (.did t k o r w :: τ) = examined u τ := by
  simp only [examined]
  split
  · rename_i u' seen hx
    have hu' : u' = t := by
      unfold examines at hx
      split at hx <;> cases hx
      rename_i heq
      cases heq
      rfl
    rw [if_neg (by rw [hu']; exact h)]
  · rfl

theorem task_of_expired {o : Op} {r : Resp o} {w : World} {m : ℕ} {p : Path}
    (h : expired (.did t k o r w) = some (m, p)) : k = .expire m := by
  unfold expired at h
  split at h
  · rename_i m' p' p'' heq _
    cases heq
    split at h <;> cases h
    rfl
  · cases h

theorem movesStale_of_not_expired {x : Line} (h : expired x = none) : movesStale x = true := by
  simp only [movesStale, h]

theorem movesStale_of_task {o : Op} {r : Resp o} {w : World} (hk : ∀ m, k ≠ .expire m) :
    movesStale (.did t k o r w) = true := by
  refine movesStale_of_not_expired (Option.eq_none_iff_forall_ne_some.mpr fun mp h => ?_)
  exact hk _ (task_of_expired h)

theorem movesStale_of_not_moved {x : Line} (h : moved x = none) : movesStale x = true :=
  movesStale_of_not_expired (by simp only [expired, h])

/-- A call that keeps to the age limit keeps the promises. -/
theorem kept_expiry {x : State} {o : Op} {r : Resp o} {q : Oracle o} {w : World}
    (hx : ∀ e ∈ x.trace, movesStale e = true) (hw : step cfg.codec t o q x.world = some (r, w))
    (hs : movesStale (.did t k o r x.world) = true) :
    (expiryProtocol cfg fuel).Kept t k o r x (x.called (machine cfg fuel) t k o r w) := by
  refine ⟨trivial, fun e he => ?_, ⟨?_, fun u hu => ?_⟩, trivial, fun u k' hf => by cases hf⟩
  · rcases List.mem_cons.mp he with rfl | he
    · exact hs
    · exact hx e he
  · exact (now_of_step hw).ge
  · exact examined_of_ne fun h => hu (congrArg some h)

theorem does_other {o : Op} {A : State → Prop} (hk : ∀ m, k ≠ .expire m) :
    (expiryProtocol cfg fuel).Does t k A o fun _ _ => True :=
  fun _ _ _ _ hx _ hw _ _ => ⟨kept_expiry hx hw (movesStale_of_task hk), trivial⟩

/-- A file examined and still there is as old as it was found, or older. -/
theorem movesStale_of_sawStale {x : State} {o : Op} {r : Resp o}
    (hm : movesExamined x (.did t (.expire m) o r x.world) = true) (hs : SawStale t m n x) :
    movesStale (.did t (.expire m) o r x.world) = true := by
  obtain ⟨hnow, i, mtime, hseen, hage⟩ := hs
  cases he : expired (.did t (.expire m) o r x.world) with
  | none => exact movesStale_of_not_expired he
  | some mp =>
    obtain ⟨m', p⟩ := mp
    cases task_of_expired he
    simp only [movesExamined, he, beq_iff_eq, hseen] at hm
    obtain ⟨j, hj, heq⟩ := Option.map_eq_some_iff.mp hm.symm
    cases heq
    simp only [movesStale, he, hj, Option.all_some, decide_eq_true_eq]
    have := ageSecs_mono (x.world.fs.tree.node i).mtime hnow
    omega

/-- A finalize of a file found stale. -/
theorem does_finalize {name : String} {o : Op} (ho : o.finalizes name) :
    (expiryProtocol cfg fuel).Does t (.expire m) (SawStale t m n) o fun _ => SawStale t m n := by
  intro x q r w hx hs hw hm _
  refine ⟨kept_expiry hx hw (movesStale_of_sawStale hm hs), ?_⟩
  obtain ⟨hnow, i, mtime, hseen, hage⟩ := hs
  have hno : examines (.did t (.expire m) o r x.world) = none := by
    unfold examines
    split
    · rename_i heq
      cases heq
      cases ho
    · rfl
  exact ⟨(now_of_step hw).ge.trans' hnow, i, mtime, (examined_cons hno).trans hseen, hage⟩

theorem stable_sawStale : (expiryProtocol cfg fuel).Stable t (SawStale t m n) := by
  rintro a x y ha _ _ ⟨hclock, hg⟩ ⟨hnow, i, mtime, hseen, hage⟩
  exact ⟨hnow.trans hclock, i, mtime, (hg t ha).trans hseen, hage⟩

/-- The clock has not gone back. -/
theorem stable_now : (expiryProtocol cfg fuel).Stable t fun x => n ≤ x.world.fs.now :=
  fun _ _ _ _ _ _ hg h => h.trans hg.1

/-- A call that moves nothing. -/
theorem does_look {o : Op} (ho : ∀ r w, moved (.did t (.expire m) o r w) = none) :
    (expiryProtocol cfg fuel).Does t (.expire m) (fun x => n ≤ x.world.fs.now) o
      fun _ x => n ≤ x.world.fs.now :=
  fun x _ r _ hx hn hw _ _ =>
    ⟨kept_expiry hx hw (movesStale_of_not_moved (ho r x.world)), (now_of_step hw).ge.trans' hn⟩

/-- What examining a file shows. -/
theorem does_lstat {p : Path} :
    (expiryProtocol cfg fuel).Does t (.expire m) (fun x => n ≤ x.world.fs.now) (.fs (.lstat p))
      fun r x => n ≤ x.world.fs.now ∧
        ∀ md, r = .ok md → m < ageSecs n md.mtime → SawStale t m n x := by
  intro x q r w hx hn hw hm hf
  obtain ⟨hk, hn'⟩ := does_look (fun _ _ => rfl) x q r w hx hn hw hm hf
  refine ⟨hk, hn', ?_⟩
  intro md hr hage
  subst hr
  obtain ⟨s, hs, rfl⟩ := step_fs (C := cfg.codec) hw
  obtain ⟨i, hi, -⟩ := Files.lstat_ok hs
  refine ⟨hn', i, md.mtime, ?_, hage⟩
  show examined t (_ :: x.trace) = _
  simp only [examined, examines, if_true, hi, Option.map_some]

/-- One entry: what is finalized was found stale. -/
theorem expireEntry_expiry {name : String} :
    (expiryProtocol cfg fuel).Triple t (.expire m) (fun x => n ≤ x.world.fs.now)
      (expireEntry m n name) fun _ x => n ≤ x.world.fs.now := by
  refine Triple.step does_lstat (fun r => stable_now.and ?_) fun r => ?_
  · exact fun a x y ha hx hy hg h md hr hage => stable_sawStale a x y ha hx hy hg (h md hr hage)
  split
  · exact Triple.ret fun _ _ h => h.1
  · rename_i md
    split
    · rename_i hage
      have hfin : (expiryProtocol cfg fuel).Triple t (.expire m) (SawStale t m n)
          (finalizeError name s!"expired by gc: age {ageSecs n md.mtime}s > {m}s\n")
          fun _ => SawStale t m n :=
        Triple.only (finalizeError_only name _) stable_sawStale fun _ ho => does_finalize ho
      exact (hfin.pre fun x _ h => h.2 md rfl hage).bind fun _ => Triple.ret fun _ _ h => h.1
    · exact Triple.ret fun _ _ h => h.1

theorem expireStaleCur_expiry :
    (expiryProtocol cfg fuel).Triple t (.expire m) (fun _ => True) (expireStaleCur fuel m)
      fun _ _ => True := by
  have hany : ∀ {o : Op}, (∀ r w, moved (.did t (.expire m) o r w) = none) →
      (expiryProtocol cfg fuel).Does t (.expire m) (fun _ => True) o fun _ _ => True :=
    fun ho x q r w hx _ hw hm hf => ⟨(does_look (n := 0) ho x q r w hx (Nat.zero_le _) hw hm hf).1,
      trivial⟩
  refine Triple.step (hany fun _ _ => rfl) (fun _ => Stable.true) fun r => ?_
  split
  · exact Triple.ret fun _ _ _ => trivial
  · refine Triple.step (B := fun now x => now ≤ x.world.fs.now) ?_ (fun _ => stable_now)
      fun now => ?_
    · intro x q r w hx _ hw hm hf
      refine ⟨(hany (fun _ _ => rfl) x q r w hx trivial hw hm hf).1, ?_⟩
      have hw : step cfg.codec t (.fs .now) q x.world = some (r, w) := hw
      obtain ⟨s, hs, rfl⟩ := step_fs hw
      cases hs
      exact le_refl _
    · exact Triple.whileSome (I := fun _ (x : State) => now ≤ x.world.fs.now)
        (J := fun _ _ (x : State) => now ≤ x.world.fs.now) (Q := fun _ _ => True)
        (fun _ => Triple.op (does_look fun _ _ => rfl) fun _ => stable_now)
        (fun _ _ => expireEntry_expiry) (fun _ _ _ _ => trivial) (fun _ _ _ _ _ => trivial)
        (fun _ _ _ _ => trivial) fuel ()

/-- The calls of other tasks move what they like. -/
theorem only_other {α : Type} {p : Prog Resp α} {φ : Op → Prop} (hp : p.Only φ)
    (hk : ∀ m, k ≠ .expire m) :
    (expiryProtocol cfg fuel).Triple t k (fun _ => True) p fun _ _ => True :=
  Triple.only hp Stable.true fun _ _ => does_other hk

/-- **The protocol of expiries is kept by every task.** -/
theorem expiry_sound : (expiryProtocol cfg fuel).Sound where
  pre_stable _ _ := Stable.true
  hold_stable _ _ := Stable.true
  hold_of_pre _ _ _ _ _ := trivial
  body t k := by
    cases k with
    | claim n =>
      exact (only_other (tryClaim_only n) fun m => by simp).bind fun r => Triple.ret fun x _ _ => by
        cases afterClaim r <;> trivial
    | claimed n => exact Triple.ret fun _ _ _ => trivial
    | finalizeDone cur =>
      exact (only_other (finalizeDone_only cur) fun m => by simp).bind
        fun _ => Triple.ret fun _ _ _ => trivial
    | finalizeError cur reason =>
      exact (only_other (finalizeError_only cur reason) fun m => by simp).bind
        fun _ => Triple.ret fun _ _ _ => trivial
    | synthetic job fullName =>
      exact (only_other (writeSyntheticClaim_only cfg job fullName) fun m => by simp).bind
        fun _ => Triple.ret fun _ _ _ => trivial
    | expire m => exact expireStaleCur_expiry.bind fun _ => Triple.ret fun _ _ _ => trivial
  exit t k x hx _ _ := by
    refine ⟨trivial, fun e he => ?_, le_refl _, fun u _ => examined_cons rfl⟩
    rcases List.mem_cons.mp he with rfl | he
    · exact movesStale_of_not_moved rfl
    · exact hx e he
  crash t k x w _ hw := by cases hw
  env e x w hx hw := by
    cases hw
    exact ⟨hx, e.now_le_step, fun _ _ => rfl⟩

/-- **Expiry moves only stale claims.** In every run in which the file an
expiry moves is the one it examined, every claim an expiry moves to
`error/` is older, when it is moved, than the limit. -/
theorem expiry_moves_stale {c₀ c : Pool} (h₀ : Start cfg fuel c₀)
    (hr : (machine cfg fuel).Run (fun s x => movesExamined s x = true) c₀ c) :
    ∀ x ∈ c.trace, movesStale x = true := by
  have hinit : (expiryProtocol cfg fuel).Holds c₀ := by
    refine expiry_sound.init (fun e he => ?_) fun t k p ht => ?_
    · rw [h₀.trace] at he
      cases he
    · exact ⟨(h₀.fresh t k p ht).1, (h₀.fresh t k p ht).2, trivial⟩
  exact (expiry_sound.run hinit hr).inv

/-! ## The gap -/

/-- One stale claim, of time 0. -/
def staleWorld : World := .sample [(⟨.cur, "42.job"⟩, ⟨.regular, [], 0⟩)] 9000000000

/-- The answers of a call that reads the entry `42.job`. -/
def readsEntry : Answers where
  fs := ⟨false, 0, some ⟨"42.job", .regular⟩⟩

/-- Thread 0 reads the entry and examines the file. -/
def examineSchedule : List (machine sampleConfig 2).Move :=
  calls 2 0 2 ++ [.call 0 readsEntry.oracle] ++ calls 2 0 1

/-- An expiry that nothing disturbs is such a run. -/
theorem expiry_moves_stale_alone :
    ∃ c, (machine sampleConfig 2).Run (fun s x => movesExamined s x = true)
        (samplePool 2 [.expire 5] staleWorld) c ∧
      (c.world.fs.tree.ino ⟨.error, "42.job"⟩).isSome = true ∧
      ∀ x ∈ c.trace, movesStale x = true := by
  have h : (((machine sampleConfig 2).follow movesExamined (examineSchedule ++ calls 2 0 8)
      (samplePool 2 [.expire 5] staleWorld)).map fun c =>
        (c.world.fs.tree.ino ⟨.error, "42.job"⟩).isSome) = some true := by decide
  obtain ⟨c, hc, hmoved⟩ := Option.map_eq_some_iff.mp h
  have hr := Machine.run_of_follow hc
  exact ⟨c, hr, hmoved, expiry_moves_stale (samplePool_start _ (by simp)) hr⟩

/-- The stale claim is examined; its worker finalizes it; the reconciler
claims the job again; the expiry goes on. -/
def takeoverSchedule : List (machine sampleConfig 2).Move :=
  examineSchedule ++ calls 2 1 7 ++ calls 2 2 10 ++ calls 2 0 3

/-- **An expiry can move a fresh claim.** -/
theorem expiry_moves_fresh_claim :
    ∃ c₀ c : Pool, Start sampleConfig 2 c₀ ∧ (machine sampleConfig 2).Run (fun _ _ => True) c₀ c ∧
      ∃ x ∈ c.trace, movesStale x = false := by
  have h : (((machine sampleConfig 2).follow (fun _ _ => true) takeoverSchedule (samplePool 2
      [.expire 5, .finalizeDone "42.job", .synthetic sampleStatus "o/r"] staleWorld)).map fun c =>
        c.trace.all movesStale) = some false := by decide
  obtain ⟨c, hc, hall⟩ := Option.map_eq_some_iff.mp h
  obtain ⟨x, hx, hfresh⟩ := List.all_eq_false.mp hall
  exact ⟨_, c, samplePool_start _ (by simp), (Machine.run_of_follow hc).mono fun _ _ _ => trivial,
    x, hx, by simpa using hfresh⟩

end Spool

end GhaConsumer

import GhaConsumer.Files.Frame
import GhaConsumer.Interleave.RelyGuarantee
import GhaConsumer.Spool.Calls
import GhaConsumer.Spool.Pool

/-!
# Spool — replays

`try_claim` asks the archive after its rename, without the archive lock;
`archive` installs a marker over an older one by first moving the older
one aside. Between the two renames the path is empty, and a check made
then lets a replay through (`check_misses_marker_moved_aside`). Where no
check looks at a path whose marker is aside, no replay is claimed
(`not_claimed_after_install`).
-/

namespace GhaConsumer

namespace Spool

open Interleave Protocol

/-! ## What the history says -/

/-- Some finalize has installed its claim at `d`. -/
def installed (d : Path) (τ : List Line) : Bool :=
  τ.any fun x => moved x == some (curPath d.name, d)

/-- The file that was last at `d` has been moved away, and none put in
its place. -/
def aside (d : Path) : List Line → Bool
  | [] => false
  | x :: τ =>
    match moved x with
    | some (p, p') => if p' = d then false else p == d || aside d τ
    | none => aside d τ

/-- The line is `t`'s rename of `new/<name>` into `cur/`. -/
def isClaim (t : Tid) (name : String) : Line → Bool
  | .did u _ (.fs (.renameNoClobber p p')) (.ok ()) _ =>
    u == t && p == ⟨.new, name⟩ && p' == curPath name
  | _ => false

/-- `t` renamed `new/<name>` into `cur/` after a finalize had installed a
marker at `d`. -/
def claimedAfter (t : Tid) (name : String) (d : Path) : List Line → Bool
  | [] => false
  | x :: τ => isClaim t name x && installed d τ || claimedAfter t name d τ

/-- The condition on a check a claim makes after its rename: it does not
fail, finds no marker that is a link leading nowhere, and does not look at
a path whose marker a finalize has moved aside. -/
def checkSees (s : State) : Line → Bool
  | .did t (.claim name) (.fs (.tryExists d)) r w =>
    !claimedAfter t name d s.trace || !aside d s.trace && r == (w.fs.tree.ino d).isSome
  | _ => true

/-- The two markers of a name. -/
def markers (name : String) : List Path := [⟨.done, name⟩, ⟨.error, name⟩]

theorem installed_of_claimedAfter {t : Tid} {name : String} {d : Path} {τ : List Line}
    (h : claimedAfter t name d τ = true) : installed d τ = true := by
  induction τ with
  | nil => cases h
  | cons x τ ih =>
    simp only [claimedAfter, Bool.or_eq_true, Bool.and_eq_true] at h
    simp only [installed, List.any_cons, Bool.or_eq_true]
    rcases h with h | h
    · exact .inr h.2
    · exact .inr (ih h)

theorem isClaim_of_ne {t u : Tid} {name : String} {k : Task} {o : Op} {r : Resp o} {w : World}
    (h : t ≠ u) : isClaim u name (.did t k o r w) = false := by
  unfold isClaim
  split
  · rename_i heq
    cases heq
    rw [beq_false_of_ne h, Bool.false_and, Bool.false_and]
  · rfl

theorem claimedAfter_cons {t : Tid} {name : String} {d : Path} {x : Line} {τ : List Line}
    (h : isClaim t name x = false) : claimedAfter t name d (x :: τ) = claimedAfter t name d τ := by
  simp [claimedAfter, h]

/-! ## The protocol -/

/-- A marker installed stands, unless it is aside. -/
def Stands (x : State) : Prop :=
  ∀ d, d.dir.isArchive = true → installed d x.trace = true →
    aside d x.trace = true ∨ (x.world.fs.tree.ino d).isSome = true

/-- `t` has not claimed `name` after a marker of it was installed. -/
def NoReplay (name : String) (t : Tid) (x : State) : Prop :=
  ∀ d ∈ markers name, claimedAfter t name d x.trace = false

/-- What a thread knows at a task. -/
def knowsNoReplay (t : Tid) : Task → State → Prop
  | .claimed name => NoReplay name t
  | _ => fun _ => True

variable (cfg : Config) (fuel : ℕ)

/-- The protocol of replays. -/
def replayProtocol : Protocol (machine cfg fuel) where
  Meets s x := checkSees s x = true
  inv := Stands
  guar a x y := ∀ t n d, a ≠ some t → claimedAfter t n d y.trace = claimedAfter t n d x.trace
  pre := knowsNoReplay
  hold := knowsNoReplay
  fin _ _ _ := True
  good _ _ := True

/-- The calls that leave markers where they are, or move them. -/
def keepsMarkers : Op → Prop
  | .fs (.removeFile p) => p.dir.isArchive = false
  | _ => True

variable {cfg fuel}
variable {t : Tid} {k : Task} {d : Path} {name : String}

/-- A marker that stands stays, or is moved aside, and one that is put
back stands: any call but a removal keeps `Stands`. -/
theorem stands_called {x : State} {o : Op} {r : Resp o} {q : Oracle o} {w : World}
    (hx : Stands x) (hw : step cfg.codec t o q x.world = some (r, w)) (ho : keepsMarkers o) :
    Stands (x.called (machine cfg fuel) t k o r w) := by
  intro d hdir
  have hold := hx d hdir
  set e : Line := .did t k o r x.world with he
  show installed d (e :: x.trace) = true → aside d (e :: x.trace) = true ∨ _
  -- a rename may take the marker away or put one there; any other call leaves the path as it
  -- stood
  cases hm : moved e with
  | none =>
    have hfs : (x.world.fs.tree.ino d).isSome = true → (w.fs.tree.ino d).isSome = true := by
      cases o with
      | fs o =>
        obtain ⟨s, hs, rfl⟩ := step_fs hw
        intro hi
        obtain ⟨i, hi⟩ := Option.isSome_iff_exists.mp hi
        have hrm : o ≠ .removeFile d := by rintro rfl; simp [keepsMarkers, hdir] at ho
        exact Option.isSome_iff_exists.mpr ⟨i, Files.ino_of_not_moved hs hm hrm hi⟩
      | _ => intro hi; rwa [fs_of_step hw (by simp)]
    intro hin
    simp only [installed, List.any_cons, hm, Bool.or_eq_true] at hin
    simp only [aside, hm]
    rcases hin with hin | hin
    · cases hin
    · exact (hold hin).imp_right hfs
  | some pp =>
    obtain ⟨p, p'⟩ := pp
    cases o with
    | fs o =>
      obtain ⟨s, hs, rfl⟩ := step_fs hw
      obtain ⟨⟨i, hi⟩, rfl⟩ := Files.state_of_moved hs hm
      intro hin
      simp only [installed, List.any_cons, hm, Bool.or_eq_true] at hin
      simp only [aside, hm, Shared.called, Files.State.tree_move]
      by_cases hto : p' = d
      · subst hto
        right
        rw [Files.Tree.ino_move_to hi]
        rfl
      · rw [if_neg hto, Bool.or_eq_true, beq_iff_eq]
        by_cases hfrom : p = d
        · exact .inl (.inl hfrom)
        · rw [Files.Tree.ino_move_of_ne (Ne.symm hfrom) (Ne.symm hto)]
          refine (hold ?_).imp_left .inr
          simpa [installed, hto] using hin
    | _ => cases hm

/-- A call that removes no marker keeps the promises. -/
theorem kept_replay {x : State} {o : Op} {r : Resp o} {q : Oracle o} {w : World}
    (hx : Stands x) (hw : step cfg.codec t o q x.world = some (r, w)) (ho : keepsMarkers o)
    (hk : ∀ n, k ≠ .claimed n) :
    (replayProtocol cfg fuel).Kept t k o r x (x.called (machine cfg fuel) t k o r w) := by
  refine ⟨trivial, stands_called hx hw ho, fun u n d hu => ?_, ?_, fun u k' hf => by cases hf⟩
  · exact claimedAfter_cons (isClaim_of_ne fun heq => hu (congrArg some heq))
  · cases k with
    | claimed n => exact absurd rfl (hk n)
    | _ => trivial

theorem does_replay {o : Op} {A : State → Prop} (ho : keepsMarkers o) (hk : ∀ n, k ≠ .claimed n) :
    (replayProtocol cfg fuel).Does t k A o fun _ _ => True :=
  fun _ _ _ _ hx _ hw _ _ => ⟨kept_replay hx hw ho hk, trivial⟩

/-- A check after the rename that finds no marker at `d`: the claim came
after none there. -/
theorem does_check {d d' : Path} {φ : Prop} (hd : d.dir.isArchive = true) :
    (replayProtocol cfg fuel).Does t (.claim name)
      (fun x => φ → claimedAfter t name d' x.trace = false) (.fs (.tryExists d)) fun r x =>
        (φ → claimedAfter t name d' x.trace = false) ∧
          (r = false → claimedAfter t name d x.trace = false) := by
  intro x q r w hx hA hw hm _
  have hsame : ∀ e, claimedAfter t name e (.did t (.claim name) (.fs (.tryExists d)) r x.world ::
      x.trace) = claimedAfter t name e x.trace := fun e => claimedAfter_cons rfl
  refine ⟨kept_replay hx hw trivial fun n => by simp, fun hφ => (hsame d').trans (hA hφ), ?_⟩
  rintro rfl
  refine (hsame d).trans ?_
  by_contra hc
  rw [Bool.not_eq_false] at hc
  -- a marker the claim came after was installed, so it stands, and the check saw it
  have hsees : aside d x.trace = false ∧ false = (x.world.fs.tree.ino d).isSome := by
    simpa [replayProtocol, checkSees, hc] using hm
  rcases hx d hd (installed_of_claimedAfter hc) with ha | hs
  · rw [ha] at hsees; cases hsees.1
  · rw [hs] at hsees; cases hsees.2

theorem stable_claimedAfter {φ : Prop} :
    (replayProtocol cfg fuel).Stable t fun x => φ → claimedAfter t name d x.trace = false :=
  fun _ _ _ ha _ _ hg h hφ => (hg t name d ha).trans (h hφ)

/-- The archive check after the rename. -/
theorem isArchived_replay :
    (replayProtocol cfg fuel).Triple t (.claim name) (fun _ => True) (isArchived name)
      fun b x => b = false → NoReplay name t x := by
  have hdone : (replayProtocol cfg fuel).Does t (.claim name)
      (fun x => False → claimedAfter t name ⟨.done, name⟩ x.trace = false)
      (.fs (.tryExists ⟨.done, name⟩)) fun r x =>
        (False → claimedAfter t name ⟨.done, name⟩ x.trace = false) ∧
          (r = false → claimedAfter t name ⟨.done, name⟩ x.trace = false) := does_check rfl
  refine Triple.step (fun x q r w hx _ => hdone x q r w hx False.elim)
    (fun r => stable_claimedAfter.and stable_claimedAfter) fun r => ?_
  split
  · exact Triple.ret fun x _ _ h => by cases h
  · rename_i hr
    refine ((Triple.op (does_check (d := ⟨.error, name⟩) rfl) fun r' =>
      stable_claimedAfter.and stable_claimedAfter).conseq (fun x _ h => h.2) ?_)
    intro r' x _ h hr' d hd
    simp only [markers, List.mem_cons, List.not_mem_nil, or_false] at hd
    rcases hd with rfl | rfl
    · exact h.1 (by simpa using hr)
    · exact h.2 hr'

theorem keepsMarkers_of_claims {o : Op} (h : o.claims name) : keepsMarkers o := by
  unfold keepsMarkers
  split
  · rcases h with rfl | rfl <;> rfl
  · trivial

theorem keepsMarkers_of_finalizes {o : Op} (h : o.finalizes name) : keepsMarkers o := by
  unfold keepsMarkers
  split
  · cases h
  · trivial

theorem keepsMarkers_of_synthesizes {job : JobStatus} {o : Op} (h : o.synthesizes cfg job) :
    keepsMarkers o := by
  unfold keepsMarkers
  split
  · obtain ⟨nonce, rfl⟩ := h
    rfl
  · trivial

theorem keepsMarkers_of_expires {o : Op} (h : o.expires) : keepsMarkers o := by
  rcases h with ⟨n, h⟩ | rfl | rfl | ⟨n, rfl⟩
  · exact keepsMarkers_of_finalizes h
  · trivial
  · trivial
  · trivial

/-- A program that removes no marker can be left out of account. -/
theorem only_replay {α : Type} {p : Prog Resp α} (hp : p.Only keepsMarkers)
    (hk : ∀ n, k ≠ .claimed n) :
    (replayProtocol cfg fuel).Triple t k (fun _ => True) p fun _ _ => True :=
  Triple.only hp Stable.true fun _ ho => does_replay ho hk

/-- What a claim returns, the second archive check has let through. -/
theorem tryClaim_replay :
    (replayProtocol cfg fuel).Triple t (.claim name) (fun _ => True) (tryClaim name)
      fun r x => ∀ n, r = .ok (some n) → NoReplay n t x := by
  have hk : ∀ n, Task.claim name ≠ .claimed n := fun n => by simp
  have harch := isArchived_only (φ := keepsMarkers) (fun _ => trivial) name
  have hrm : ∀ {d : Path}
      {f : Except Files.Errno Unit → Prog Resp (Except String (Option String))}, d.dir.isArchive = false →
      (∀ r, f r = .ret (.ok none)) → (replayProtocol cfg fuel).Triple t (.claim name)
        (fun _ => True) (fs (.removeFile d) >>= f) fun r x =>
          ∀ n, r = .ok (some n) → NoReplay n t x := by
    intro d f hd hf
    refine Triple.step (does_replay hd hk) (fun _ => Stable.true) fun r => ?_
    rw [hf]
    exact Triple.ret fun x _ _ n h => by cases h
  refine (only_replay harch hk).bind fun b => ?_
  split
  · exact hrm rfl fun _ => rfl
  · refine (only_replay ((stampMtimeNow_only _).mono fun o h => ?_) hk).bind fun _ => ?_
    · exact keepsMarkers_of_claims (h.claims name)
    · refine Triple.step (does_replay trivial hk) (fun _ => Stable.true) fun r => ?_
      split
      · -- the rename has succeeded: the second check decides
        refine isArchived_replay.bind fun b => ?_
        split
        · exact (hrm rfl fun _ => rfl).pre fun _ _ _ => trivial
        · rename_i hb
          refine Triple.ret fun x _ h n hn => ?_
          cases hn
          exact h (by simpa using hb)
      · exact Triple.ret fun x _ _ n h => by cases h
      · exact hrm rfl fun _ => rfl
      · exact Triple.ret fun x _ _ n h => by cases h

/-- **The protocol of replays is kept by every task.** -/
theorem replay_sound : (replayProtocol cfg fuel).Sound where
  pre_stable t k := by
    cases k with
    | claimed n => exact fun _ _ _ ha _ _ hg h d hd => (hg t n d ha).trans (h d hd)
    | _ => exact Stable.true
  hold_stable t k := by
    cases k with
    | claimed n => exact fun _ _ _ ha _ _ hg h d hd => (hg t n d ha).trans (h d hd)
    | _ => exact Stable.true
  hold_of_pre t k x _ h := h
  body t k := by
    cases k with
    | claim n =>
      refine tryClaim_replay.bind fun r => Triple.ret fun x _ h => ?_
      rcases r with e | _ | n'
      · trivial
      · trivial
      · exact h n' rfl
    | claimed n => exact Triple.ret fun _ _ _ => trivial
    | finalizeDone cur =>
      refine (only_replay ((finalizeDone_only cur).mono fun _ => keepsMarkers_of_finalizes)
        fun n => by simp).bind fun _ => Triple.ret fun _ _ _ => trivial
    | finalizeError cur reason =>
      refine (only_replay ((finalizeError_only cur reason).mono fun _ => keepsMarkers_of_finalizes)
        fun n => by simp).bind fun _ => Triple.ret fun _ _ _ => trivial
    | synthetic job fullName =>
      refine (only_replay ((writeSyntheticClaim_only cfg job fullName).mono
        fun _ => keepsMarkers_of_synthesizes) fun n => by simp).bind
          fun _ => Triple.ret fun _ _ _ => trivial
    | expire maxAgeSecs =>
      refine (only_replay ((expireStaleCur_only fuel maxAgeSecs).mono
        fun _ => keepsMarkers_of_expires) fun n => by simp).bind
          fun _ => Triple.ret fun _ _ _ => trivial
  exit t k x hx _ _ := by
    refine ⟨trivial, hx, fun u n d _ => ?_⟩
    exact claimedAfter_cons rfl
  crash t k x w _ hw := by cases hw
  -- a delivery touches `new/` alone
  env e x w hx hw := by
    cases hw
    refine ⟨fun d hd hin => ?_, fun _ _ _ _ => rfl⟩
    rw [Env.ino_step e (by rintro h; rw [h] at hd; cases hd)]
    exact hx d hd hin

/-- **No replay is claimed.** In every run in which no check made after a
claim's rename fails, or looks at a path whose marker a finalize has
moved aside, no `try_claim` returns a path if its rename came after a
marker of that name was installed. -/
theorem not_claimed_after_install {c₀ c : Pool} (h₀ : Start cfg fuel c₀)
    (hr : (machine cfg fuel).Run (fun s x => checkSees s x = true) c₀ c)
    {p : Prog Resp (Option Task)} (ht : c.threads t = some (.claimed name, p)) :
    ∀ d ∈ markers name, claimedAfter t name d c.trace = false := by
  have hinit : (replayProtocol cfg fuel).Holds c₀ := by
    refine replay_sound.init ?_ fun u k q hu => ?_
    · intro d _ hin
      rw [h₀.trace] at hin
      cases hin
    · obtain ⟨hlt, rfl⟩ := h₀.fresh u k q hu
      refine ⟨hlt, rfl, ?_⟩
      cases k with
      | claimed n => exact absurd hu (h₀.unclaimed u n _)
      | _ => trivial
  exact (replay_sound.run hinit hr).hold t (.claimed name) p ht

/-! ## The gap -/

/-- A claim of a fresh entry is such a run. -/
theorem not_claimed_after_install_fresh :
    ∃ c p, (machine sampleConfig 0).Run (fun s x => checkSees s x = true)
        (samplePool 0 [.claim "42.job"] (.sample [(⟨.new, "42.job"⟩, ⟨.regular, [], 0⟩)] 5)) c ∧
      c.threads 0 = some (.claimed "42.job", p) ∧
      ∀ d ∈ markers "42.job", claimedAfter 0 "42.job" d c.trace = false := by
  have h : (((machine sampleConfig 0).follow checkSees (calls 0 0 9 ++ [.again 0])
      (samplePool 0 [.claim "42.job"] (.sample [(⟨.new, "42.job"⟩, ⟨.regular, [], 0⟩)] 5))).map
        fun c => (c.threads 0).map Prod.fst) = some (some (.claimed "42.job")) := by decide
  obtain ⟨c, hc, hth⟩ := Option.map_eq_some_iff.mp h
  obtain ⟨⟨_, p⟩, hp, rfl⟩ := Option.map_eq_some_iff.mp hth
  have hr := Machine.run_of_follow hc
  exact ⟨c, p, hr, hp, not_claimed_after_install (samplePool_start _ (by simp)) hr hp⟩

/-- The original claim, and a replay of it. -/
def replayWorld : World :=
  .sample [(⟨.cur, "42.job"⟩, ⟨.regular, [], 0⟩), (⟨.new, "42.job"⟩, ⟨.regular, [], 0⟩)] 5

/-- A replay passes its first check; the worker finalizes; the replay's
rename succeeds; a second finalize moves the marker aside; the replay
makes its second check. -/
def gapSchedule : List (machine sampleConfig 0).Move :=
  calls 0 0 6 ++ calls 0 1 8 ++ calls 0 0 1 ++ calls 0 2 6 ++ calls 0 0 2 ++ [.again 0]

/-- **A check misses a marker moved aside.** The rename came after the
marker was installed, and the claim is made all the same. -/
theorem check_misses_marker_moved_aside :
    ∃ (c₀ c : Pool) (p : Prog Resp (Option Task)), Start sampleConfig 0 c₀ ∧
      (machine sampleConfig 0).Run (fun _ _ => True) c₀ c ∧
      c.threads 0 = some (.claimed "42.job", p) ∧
      claimedAfter 0 "42.job" ⟨.error, "42.job"⟩ c.trace = true := by
  have h : (((machine sampleConfig 0).follow (fun _ _ => true) gapSchedule (samplePool 0
      [.claim "42.job", .finalizeError "42.job" "x", .finalizeError "42.job" "expired"]
        replayWorld)).map fun c => ((c.threads 0).map Prod.fst,
          claimedAfter 0 "42.job" ⟨.error, "42.job"⟩ c.trace)) =
        some (some (.claimed "42.job"), true) := by decide
  obtain ⟨c, hc, hth⟩ := Option.map_eq_some_iff.mp h
  simp only [Prod.mk.injEq, Option.map_eq_some_iff] at hth
  obtain ⟨⟨⟨_, p⟩, hp, rfl⟩, hafter⟩ := hth
  exact ⟨_, c, p, samplePool_start _ (by simp), (Machine.run_of_follow hc).mono
    fun _ _ _ => trivial, hp, hafter⟩

end Spool

end GhaConsumer

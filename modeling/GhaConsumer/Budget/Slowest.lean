import GhaConsumer.Budget.Deadline
import GhaConsumer.Host.Sample
import GhaConsumer.Runner.Watchdog

/-!
# Budget — the slowest worker

A run of a worker in which every step lasts as long as it may: what shows
the bound of `Deadline` met.
-/

namespace GhaConsumer

namespace Budget

open Interleave Alone

variable (cfg : Config) {t d : ℕ} {s s' : State} {o : Op} {r : Resp o} {w' : World}
variable {g : GitHub.World}

/-! ## One call -/

/-- The state a call leaves. -/
def State.after (cfg : Config) (s : State) (o : Op) (r : Resp o) (w' : World) (g : GitHub.World) :
    State where
  world := w'
  github := g
  shellEnds := shellEndsAfter cfg s w'.fs.now o
  mtime := mtimeAfter s w' o r
  called := calledAfter s o

theorem timed_after {q : Oracle o} (hq : Stamps o q) (hd : Lasts cfg s d g o r)
    (hs : step cfg.codec 0 o q (Env.step (.tick d) s.world) = some (r, w'))
    (hnow : ageSecs w'.fs.now 0 ≤ u64Max) :
    timedStep cfg o s r (s.after cfg o r w' g) :=
  ⟨d, q, hq, hd, hs, hnow, rfl, rfl, rfl⟩

/-- A claim made at 0 is held, and it is `t`. -/
structure Held (t : ℕ) (s : State) : Prop where
  now : s.world.fs.now = t
  mtime : s.mtime = some 0
  called : s.called = none

/-- And the installation id is known. -/
structure Warm (t : ℕ) (s : State) : Prop extends Held t s where
  known : s.github.cell = .filled 1

/-- A call of another part of the world than the files. -/
theorem held_after {q : Oracle o} (hh : Held t s) (hd : Lasts cfg s d g o r)
    (hs : step cfg.codec 0 o q (Env.step (.tick d) s.world) = some (r, w'))
    (ho : (∃ k, o = .lima k) ∨ ∃ k, o = .hub k) (hnow : ageSecs (t + d) 0 ≤ u64Max) :
    timedStep cfg o s r (s.after cfg o r w' g) ∧ Held (t + d) (s.after cfg o r w' g) := by
  have hlater : w'.fs.now = t + d := by
    rw [now_of_step hs, ← hh.now]
    rfl
  refine ⟨timed_after cfg ?_ hd hs (hlater ▸ hnow), hlater, ?_, ?_⟩
  · rcases ho with ⟨k, rfl⟩ | ⟨k, rfl⟩ <;> exact trivial
  · rcases ho with ⟨k, rfl⟩ | ⟨k, rfl⟩ <;> exact hh.mtime
  · rcases ho with ⟨k, rfl⟩ | ⟨k, rfl⟩ <;> exact hh.called

/-- A call of Lima that may last `d`. -/
theorem lima_goes {k : Lima.Op} {r : Lima.Resp k} {q : Lima.Oracle} {l : Lima.State}
    (hw : Warm t s) (hd : Lasts cfg s d s.github (.lima k) r)
    (hs : Lima.step cfg.codec k q s.world.lima = some (r, l))
    (hnow : ageSecs (t + d) 0 ≤ u64Max) :
    ∃ s', timedStep cfg (.lima k) s r s' ∧ Warm (t + d) s' ∧
      s'.shellEnds = shellEndsAfter cfg s (t + d) (.lima k) := by
  have hstep : step cfg.codec 0 (.lima k) q (Env.step (.tick d) s.world) =
      some (r, { Env.step (.tick d) s.world with lima := l }) := by
    show (Lima.step cfg.codec k q s.world.lima).map _ = _
    rw [hs]
    rfl
  obtain ⟨ht, hh⟩ := held_after cfg hw.toHeld hd hstep (.inl ⟨k, rfl⟩) hnow
  refine ⟨_, ht, ⟨hh, hw.known⟩, ?_⟩
  show shellEndsAfter cfg s (s.world.fs.now + d) _ = _
  rw [hw.now]

/-- A call of GitHub in which every request runs to its timeout. -/
theorem hub_goes {k : Hub.Op} {r : Hub.Resp k} {q : Hub.Oracle} {l : Hub.State}
    (hw : Warm t s)
    (hd : ∀ {d : ℕ} {g : GitHub.World}, (∃ (line appId : ℕ) (account ctx : String)
      (build : GitHub.Request) (a : GitHub.Answer String),
      Ends (GitHub.timedStep (secs cfg.apiTimeoutSecs.toNat) line)
        (GitHub.sendAuthed appId account ctx build) { s.github with now := s.world.fs.now } a g ∧
      g.now = s.world.fs.now + d ∧ a.isOk = true) → Lasts cfg s d g (.hub k) r)
    (hs : Hub.step k q s.world.hub = some (r, l))
    (hnow : ageSecs (t + 4 * apiTimeout cfg) 0 ≤ u64Max) :
    ∃ s', timedStep cfg (.hub k) s r s' ∧ Warm (t + 4 * apiTimeout cfg) s' := by
  obtain ⟨g, he, hg, hcell⟩ : ∃ g, Ends (GitHub.timedStep (apiTimeout cfg) 0)
      (GitHub.sendAuthed 1 "o" "" ⟨"GET", "", none⟩) { s.github with now := s.world.fs.now }
      (.ok GitHub.created) g ∧ _ :=
    GitHub.sendAuthed_known_slow (Int.natCast_nonneg _) hw.known
  have hstep : step cfg.codec 0 (.hub k) q (Env.step (.tick (4 * apiTimeout cfg)) s.world) =
      some (r, { Env.step (.tick (4 * apiTimeout cfg)) s.world with hub := l }) := by
    show (Hub.step k q s.world.hub).map _ = _
    rw [hs]
    rfl
  obtain ⟨ht, hh⟩ := held_after cfg hw.toHeld
    (hd ⟨0, 1, "o", "", ⟨"GET", "", none⟩, _, he, hg, rfl⟩) hstep
    (.inr ⟨k, rfl⟩) hnow
  exact ⟨_, ht, hh, hcell⟩

/-- A call on files that moves none into `cur/`. -/
theorem fs_goes {k : Files.Op Dir String} {r : Files.Resp k} {q : Files.Oracle String}
    {f : FileState} (hq : Stamps (.fs k) q) (hs : Files.step 0 k q s.world.fs = some (r, f))
    (hnow : ageSecs s.world.fs.now 0 ≤ u64Max) :
    timedStep cfg (.fs k) s r
      (s.after cfg (.fs k) r { s.world with fs := f } s.github) := by
  have hstep : step cfg.codec 0 (.fs k) q (Env.step (.tick 0) s.world) =
      some (r, { s.world with fs := f }) := by
    show (Files.step 0 k q s.world.fs).map _ = _
    rw [hs]
    rfl
  refine timed_after cfg hq ⟨rfl, rfl⟩ hstep ?_
  rw [show f.now = s.world.fs.now from Files.now_of_step hs]
  exact hnow

/-! ## The claim -/

/-- Where the run starts: no files, no VMs, and the installation id known. -/
def slowStart : State where
  world := World.sample [] 0
  github := ⟨.filled 1, none, 0, ["tok"]⟩
  shellEnds := 0
  mtime := none
  called := none

/-- What a claim just made leaves. -/
structure Claimed (s : State) : Prop extends Warm 0 s where
  noVms : s.world.lima.vms = []
  noBlob : s.world.fs.tree.ino (jitPath (vmName sampleStatus.id)) = none

/-- A stamp goes through. -/
theorem stamp_goes {o : Op} (ho : o.stamps) (hc : Claimed s) :
    ∃ r s', timedStep cfg o s r s' ∧ Claimed s' := by
  have hnow : ageSecs s.world.fs.now 0 ≤ u64Max := by rw [hc.now]; decide
  have hgoes : ∀ {k : Files.Op Dir String} {r : Files.Resp k} {f : FileState}
      (hq : Stamps (.fs k) ⟨false, 0, none⟩)
      (hs : Files.step 0 k ⟨false, 0, none⟩ s.world.fs = some (r, f))
      (hk : mtimeAfter s { s.world with fs := f } (.fs k) r = s.mtime)
      (ht : f.tree.ino (jitPath (vmName sampleStatus.id)) =
        s.world.fs.tree.ino (jitPath (vmName sampleStatus.id))),
      ∃ r s', timedStep cfg (.fs k) s r s' ∧ Claimed s' := by
    intro k r f hq hs hk ht
    refine ⟨r, _, fs_goes cfg hq hs hnow, ⟨⟨?_, ?_, hc.called⟩, hc.known⟩, hc.noVms, ?_⟩
    · exact (Files.now_of_step hs).trans hc.now
    · exact hk.trans hc.mtime
    · exact ht.trans hc.noBlob
  cases o with
  | fs k =>
    cases k with
    | openRead p =>
      exact hgoes rfl rfl rfl rfl
    | fstat i => exact hgoes rfl rfl rfl rfl
    | now => exact hgoes trivial rfl rfl rfl
    | setModified i m => exact hgoes rfl rfl rfl rfl
    | _ => exact ho.elim
  | _ => exact ho.elim

/-- Nothing but files has changed, and no time has passed. -/
structure Still (s s' : State) : Prop where
  now : s'.world.fs.now = s.world.fs.now
  lima : s'.world.lima = s.world.lima
  github : s'.github = s.github
  mtime : s'.mtime = s.mtime
  called : s'.called = s.called
  shellEnds : s'.shellEnds = s.shellEnds

theorem Still.trans {s₁ s₂ s₃ : State} (h : Still s₁ s₂) (h' : Still s₂ s₃) : Still s₁ s₃ :=
  ⟨h'.now.trans h.now, h'.lima.trans h.lima, h'.github.trans h.github, h'.mtime.trans h.mtime,
    h'.called.trans h.called, h'.shellEnds.trans h.shellEnds⟩

/-- The call goes through and leaves these files. -/
theorem still_goes {k : Files.Op Dir String} {r : Files.Resp k} {f : FileState}
    (hs : Files.step 0 k ⟨false, 0, none⟩ s.world.fs = some (r, f))
    (hk : ∀ w', mtimeAfter s w' (.fs k) r = s.mtime)
    (hnow : ageSecs s.world.fs.now 0 ≤ u64Max) :
    ∃ s', timedStep cfg (.fs k) s r s' ∧ Still s s' ∧ s'.world.fs = f := by
  have hq : Stamps (.fs k) ⟨false, 0, none⟩ := by
    cases k with
    | openRead | fstat | setModified => exact rfl
    | _ => exact trivial
  exact ⟨_, fs_goes cfg hq hs hnow, ⟨Files.now_of_step hs, rfl, rfl, hk _, rfl, rfl⟩, rfl⟩

/-- A private file is written where there is none. -/
theorem writePrivateFile_goes {p : Path} (bytes : Files.Bytes) (hp : s.world.fs.tree.ino p = none)
    (hnow : ageSecs s.world.fs.now 0 ≤ u64Max) : ∃ i s',
      Ends (timedStep cfg) (writePrivateFile p bytes) s (.ok ()) s' ∧ Still s s' ∧
        s'.world.fs.tree.ino p = some i ∧
        (s'.world.fs.tree.node i).mtime = s.world.fs.now ∧
        ∀ p', p' ≠ p → s'.world.fs.tree.ino p' = s.world.fs.tree.ino p' := by
  obtain ⟨s₁, h₁, hs₁, hf₁⟩ := still_goes cfg (k := .createNew p)
    (r := .ok s.world.fs.tree.next) (by simp only [Files.step, hp]; rfl) (fun _ => rfl) hnow
  have hnow₁ : ageSecs s₁.world.fs.now 0 ≤ u64Max := by rw [hs₁.now]; exact hnow
  obtain ⟨s₂, h₂, hs₂, hf₂⟩ := still_goes cfg (s := s₁)
    (k := .writeAll s.world.fs.tree.next bytes) (r := .ok ()) rfl (fun _ => rfl) hnow₁
  have hnow₂ : ageSecs s₂.world.fs.now 0 ≤ u64Max := by rw [hs₂.now]; exact hnow₁
  obtain ⟨s₃, h₃, hs₃, hf₃⟩ := still_goes cfg (s := s₂)
    (k := .syncAll s.world.fs.tree.next) (r := .ok ()) rfl (fun _ => rfl) hnow₂
  refine ⟨s.world.fs.tree.next, s₃, ?_, (hs₁.trans hs₂).trans hs₃, ?_, ?_, fun p' hp' => ?_⟩
  · exact ends_step.mpr ⟨_, s₁, h₁, ends_step.mpr ⟨_, s₂, h₂, _, s₃, h₃, rfl, rfl⟩⟩
  · rw [hf₃, hf₂, hf₁]
    simp
  · rw [hf₃, hf₂, hf₁]
    simp
  · rw [hf₃, hf₂, hf₁]
    simp only [Files.State.tree_overwrite, Files.State.tree_create, Files.Tree.ino_setNode]
    exact Files.Tree.ino_create_of_ne hp'

/-- The synthetic claim goes through, at time 0. -/
theorem claim_goes : ∃ s₁, Ends (timedStep cfg) (writeSyntheticClaim cfg sampleStatus "o/r")
    slowStart (.ok (some (jobFileName sampleStatus.id))) s₁ ∧ Claimed s₁ := by
  have hne : tmpName sampleStatus cfg.pid 0 ≠ jobFileName sampleStatus.id :=
    tmpName_ne_jobFileName sampleStatus cfg.pid 0 sampleStatus.id
  let tmp := curPath (tmpName sampleStatus cfg.pid 0)
  let slot := curPath (jobFileName sampleStatus.id)
  let blob := jitPath (vmName sampleStatus.id)
  have hpath : slot ≠ tmp := fun h => hne (congrArg Files.Path.name h).symm
  have hblob : blob ≠ tmp := fun h => by cases congrArg Files.Path.dir h
  have hblob' : blob ≠ slot := fun h => by cases congrArg Files.Path.dir h
  have hempty : ∀ p, slowStart.world.fs.tree.ino p = none := fun _ => rfl
  -- The slot is free, and the temporary is written.
  obtain ⟨s₁, h₁, hs₁, hf₁⟩ := still_goes cfg (s := slowStart)
    (k := .tryExists slot) (r := false) rfl (fun _ => rfl) (by decide)
  have hnow₁ : s₁.world.fs.now = 0 := hs₁.now
  obtain ⟨s₂, h₂, hs₂, hf₂⟩ := still_goes cfg (s := s₁)
    (k := .now) (r := s₁.world.fs.now) rfl (fun _ => rfl) (by rw [hnow₁]; decide)
  have hnow₂ : s₂.world.fs.now = 0 := hs₂.now.trans hnow₁
  obtain ⟨i, s₃, h₃, hs₃, hi, hmod, hothers⟩ := writePrivateFile_goes cfg
    (s := s₂) (p := tmp) (syntheticBytes cfg.codec cfg.webhookSecret sampleStatus "o/r")
    (by rw [hf₂, hf₁]; exact hempty tmp) (by rw [hnow₂]; decide)
  have hnow₃ : s₃.world.fs.now = 0 := hs₃.now.trans hnow₂
  have hnone : ∀ p, p ≠ tmp → s₃.world.fs.tree.ino p = none := by
    intro p hp
    rw [hothers p hp, hf₂, hf₁]
    exact hempty p
  -- The rename takes its time along.
  have hmove : Files.step 0 (.renameNoClobber tmp slot) ⟨false, 0, none⟩ s₃.world.fs =
      some (.ok (), s₃.world.fs.move tmp slot) := by
    simp only [Files.step, Bool.false_eq_true, if_false, hi, hnone slot hpath]
  have hrename : timedStep cfg (.fs (.renameNoClobber tmp slot)) s₃ (.ok ()) _ :=
    fs_goes cfg (q := ⟨false, 0, none⟩) trivial hmove (by rw [hnow₃]; decide)
  have hgithub : s₃.github = slowStart.github := hs₃.github.trans (hs₂.github.trans hs₁.github)
  obtain ⟨j, hj, -, -, hmtime⟩ := renamed_timed (t := 0) hrename
    ⟨⟨hs₃.called.trans (hs₂.called.trans hs₁.called), ⟨1, by rw [hgithub]; rfl⟩⟩, hnow₃⟩ rfl
  rw [hi] at hj
  cases hj
  have hclaimed : Claimed (s₃.after cfg (.fs (.renameNoClobber tmp slot)) (.ok ())
      { s₃.world with fs := s₃.world.fs.move tmp slot } s₃.github) := by
    refine ⟨⟨⟨Files.State.now_move.trans hnow₃, ?_, ?_⟩, ?_⟩, ?_, ?_⟩
    · rw [hmtime, hmod, hnow₂]
    · exact hs₃.called.trans (hs₂.called.trans hs₁.called)
    · rw [show (s₃.after cfg _ _ _ s₃.github).github = s₃.github from rfl, hgithub]
      rfl
    · show s₃.world.lima.vms = []
      rw [hs₃.lima, hs₂.lima, hs₁.lima]
      rfl
    · show (s₃.world.fs.move tmp slot).tree.ino blob = none
      rw [Files.State.tree_move, Files.Tree.ino_move_of_ne hblob hblob']
      exact hnone blob hblob
  obtain ⟨u, s₄, hstamp, hs₄⟩ : ∃ u s₄, Ends (timedStep cfg) (stampMtimeNow slot) _ u s₄ ∧
      Claimed s₄ :=
    exists_ends_keeping (stampMtimeNow_only slot) (fun o s ho hc => stamp_goes cfg ho hc)
      hclaimed
  rw [hnow₁] at h₂
  refine ⟨s₄, ends_step.mpr ⟨false, s₁, h₁, ends_step.mpr ⟨0, s₂, h₂, ?_⟩⟩, hs₄⟩
  refine ends_bind.mpr ⟨.ok (), s₃, h₃, ends_step.mpr ⟨.ok (), _, hrename, ?_⟩⟩
  exact ends_bind.mpr ⟨u, s₄, hstamp, rfl, rfl⟩

/-! ## The worker -/

/-- A command that ends with success. -/
def succeeds : Lima.Oracle := ⟨.ok ⟨true, "exit status: 0"⟩, true, true, [], "", none, none⟩

/-- A command that runs into its timeout. -/
def timesOut : Lima.Oracle := ⟨.error "timed out", false, true, [], "", none, none⟩

/-- The shell goes on. -/
def goesOn : Lima.Oracle := ⟨.ok ⟨true, "exit status: 0"⟩, true, false, [], "", none, none⟩

/-- The runner is at work, and the job has left the queue. -/
def answers : Hub.Oracle := ⟨none, true, "", [], some ⟨0, "", "online", true⟩, none, []⟩

theorem le_of_total {T : ℕ} (hT : ageSecs T 0 ≤ u64Max) (h : t ≤ T) : ageSecs t 0 ≤ u64Max :=
  (ageSecs_mono 0 h).trans hT

/-- The mint, in which every request runs to its timeout. -/
theorem mint_goes (vm : String) (labels : List String) (hc : Claimed s)
    (hnow : ageSecs (4 * apiTimeout cfg) 0 ≤ u64Max) :
    ∃ (jit : JitConfigResp) (s' : State),
      timedStep cfg (.hub (.generateJitConfig "o" "r" vm labels)) s (.ok jit) s' ∧
        Warm (4 * apiTimeout cfg) s' ∧ s'.world.lima.vms = [] ∧
        s'.world.fs.tree.ino (jitPath (vmName sampleStatus.id)) = none := by
  obtain ⟨g, he, hg, hcell⟩ : ∃ g, Ends (GitHub.timedStep (apiTimeout cfg) 0)
      (GitHub.sendAuthed 1 "o" "" ⟨"POST", "", none⟩) { s.github with now := s.world.fs.now }
      (.ok GitHub.created) g ∧ _ :=
    GitHub.sendAuthed_known_slow (Int.natCast_nonneg _) hc.known
  have hsends : Sends cfg (Except.ok (⟨s.world.hub.nextId, vm, ""⟩ : JitConfigResp) :
      Except String JitConfigResp) s (4 * apiTimeout cfg) g :=
    ⟨0, 1, "o", "", ⟨"POST", "", none⟩, _, he, hg, fun _ => rfl⟩
  have hzero : 0 + 4 * apiTimeout cfg = 4 * apiTimeout cfg := Nat.zero_add _
  obtain ⟨ht, hh⟩ := held_after cfg
    (o := .hub (.generateJitConfig "o" "r" vm labels)) (q := answers)
    hc.toHeld hsends rfl (.inr ⟨_, rfl⟩) (by rw [hzero]; exact hnow)
  rw [hzero] at hh
  exact ⟨_, _, ht, ⟨hh, hcell⟩, hc.noVms, hc.noBlob⟩

/-- The blob is written. -/
theorem blob_goes {vm : String} (bytes : Files.Bytes) (hw : Warm t s)
    (hv : s.world.lima.vms = []) (hp : s.world.fs.tree.ino (jitPath vm) = none)
    (hnow : ageSecs t 0 ≤ u64Max) : ∃ s', Ends (timedStep cfg) (writeJitBlob vm bytes) s
      (.ok ()) s' ∧ Warm t s' ∧ s'.world.lima.vms = [] := by
  have hnow₀ : ageSecs s.world.fs.now 0 ≤ u64Max := by rw [hw.now]; exact hnow
  obtain ⟨s₁, h₁, hs₁, hf₁⟩ := still_goes cfg (s := s)
    (k := .removeFile (jitPath vm)) (r := .error .notFound)
    (by simp only [Files.step, hp]; rfl) (fun _ => rfl) hnow₀
  obtain ⟨i, s₂, h₂, hs₂, -⟩ := writePrivateFile_goes cfg (s := s₁)
    (p := jitPath vm) bytes (by rw [hf₁]; exact hp) (by rw [hs₁.now]; exact hnow₀)
  have hs := hs₁.trans hs₂
  refine ⟨s₂, ?_, ⟨⟨?_, ?_, ?_⟩, ?_⟩, ?_⟩
  · exact ends_step.mpr ⟨_, s₁, h₁, ends_bind.mpr ⟨_, s₂, h₂, rfl, rfl⟩⟩
  · rw [hs.now, hw.now]
  · rw [hs.mtime, hw.mtime]
  · rw [hs.called, hw.called]
  · rw [hs.github, hw.known]
  · rw [hs.lima, hv]

/-- The VM boots in its last moment. -/
theorem start_goes (vm : String) (hw : Warm t s) (hv : s.world.lima.vms = [])
    (hnow : ageSecs (t + secs startTimeout) 0 ≤ u64Max) : ∃ s', Ends (timedStep cfg)
      (Lima.startVm vm) s (.ok ()) s' ∧ Warm (t + secs startTimeout) s' := by
  have hnone : s.world.lima.named vm = none := by rw [Lima.State.named, hv]; rfl
  obtain ⟨s', h, hw', -⟩ := lima_goes cfg (k := .start vm) (q := succeeds)
    (d := secs startTimeout) hw ⟨le_refl _, rfl⟩ (by simp only [Lima.step, hnone]; rfl) hnow
  exact ⟨s', ends_step.mpr ⟨_, s', h, rfl, rfl⟩, hw'⟩

theorem copy_goes (vm : String) (hw : Warm t s)
    (hnow : ageSecs (t + secs copyTimeout) 0 ≤ u64Max) : ∃ s', Ends (timedStep cfg)
      (Lima.copyJit vm) s (.ok ()) s' ∧ Warm (t + secs copyTimeout) s' := by
  obtain ⟨s', h, hw', -⟩ := lima_goes cfg (k := .copyInto vm)
    (q := succeeds) (d := secs copyTimeout) hw ⟨le_refl _, rfl⟩ rfl hnow
  exact ⟨s', ends_step.mpr ⟨_, s', h, rfl, rfl⟩, hw'⟩

/-- The shell ends by itself at its deadline. -/
theorem wait_goes {T : ℕ} (hw : Warm t s) (hs : s.shellEnds = T) (ht : t ≤ T)
    (hnow : ageSecs T 0 ≤ u64Max) : ∃ s', Ends (timedStep cfg) parked s
      (.exited succeeds.outcome) s' ∧ Warm T s' := by
  have hsum : t + (T - t) = T := by omega
  obtain ⟨s', h, hw', -⟩ := lima_goes cfg (k := .shellWait)
    (q := succeeds) (d := T - t) hw ⟨by rw [hw.now, hs, hsum], rfl⟩ rfl (by rw [hsum]; exact hnow)
  rw [hsum] at hw'
  exact ⟨s', ends_step.mpr ⟨_, s', h, rfl, rfl⟩, hw'⟩

/-- A poll of the watchdog that finds the runner at work. -/
theorem poll_goes (id : ℕ) {T : ℕ} (hw : Warm t s) (hs : s.shellEnds = T) (ht : t ≤ T)
    (hnow : ageSecs T 0 ≤ u64Max) : ∃ s', Ends (timedStep cfg) (observeRunner "o" "r" id) s
      .busy s' ∧ Warm t s' ∧ s'.shellEnds = T := by
  have hlasts : Lasts cfg s 0 s.github (.hub (.runnerStatus "o" "r" id))
      (.ok (some ⟨0, "", "online", true⟩)) := ⟨by rw [hw.now, hs]; exact ht, rfl⟩
  obtain ⟨h, hh⟩ := held_after cfg (q := answers) hw.toHeld hlasts rfl (.inr ⟨_, rfl⟩)
    (le_of_total hnow ht)
  exact ⟨_, ends_step.mpr ⟨_, _, h, rfl, rfl⟩, ⟨hh, hw.known⟩, hs⟩

/-- The agent runs to its deadline; a watchdog finds it at work at its
first tick. -/
theorem agent_goes (vm : String) (id : ℕ) (hw : Warm t s)
    (hnow : ageSecs (t + secs cfg.jobMaxRuntimeSecs.toNat) 0 ≤ u64Max) :
    ∃ s', Ends (timedStep cfg) (runAgent cfg 1 vm "o" "r" id) s
      (.exited succeeds.outcome) s' ∧ Warm (t + secs cfg.jobMaxRuntimeSecs.toNat) s' := by
  have hle : t ≤ t + secs cfg.jobMaxRuntimeSecs.toNat := Nat.le_add_right _ _
  have ht : ageSecs (t + 0) 0 ≤ u64Max := le_of_total hnow hle
  obtain ⟨s₁, h₁, hw₁, hends₁⟩ := lima_goes cfg (k := .shellStart vm)
    (r := .ok ()) (q := succeeds) (d := 0) hw ⟨Nat.zero_le _, rfl⟩ rfl ht
  have hends₁ : s₁.shellEnds = t + secs cfg.jobMaxRuntimeSecs.toNat := hends₁
  by_cases hdl : cfg.dispatchDeadlineSecs = 0
  · obtain ⟨s₂, h₂, hw₂⟩ := wait_goes cfg hw₁ hends₁ hle hnow
    refine ⟨s₂, ends_step.mpr ⟨_, s₁, h₁, ?_⟩, hw₂⟩
    dsimp only
    rw [if_pos hdl]
    exact h₂
  · have hfs : ∃ s', timedStep cfg (.fs .now) s₁ t s' ∧ Still s₁ s' ∧
        s'.world.fs = s₁.world.fs :=
      still_goes cfg (by rw [Files.step, hw₁.now]; rfl) (fun _ => rfl)
        (by rw [hw₁.now]; exact ht)
    obtain ⟨s₂, h₂, hs₂, -⟩ := hfs
    have hw₂ : Warm t s₂ := ⟨⟨hs₂.now.trans hw₁.now, hs₂.mtime.trans hw₁.mtime,
      hs₂.called.trans hw₁.called⟩, by rw [hs₂.github]; exact hw₁.known⟩
    have hends₂ := hs₂.shellEnds.trans hends₁
    have hmin : t + min (secs cfg.dispatchPollSecs.toNat) (secs cfg.jobMaxRuntimeSecs.toNat) ≤
        t + secs cfg.jobMaxRuntimeSecs.toNat := Nat.add_le_add_left (Nat.min_le_right _ _) t
    obtain ⟨s₃, h₃, hw₃, hends₃⟩ := lima_goes cfg (k := .shellOrTick)
      (r := none) (q := goesOn) hw₂ ⟨by rw [hw₂.now, hends₂]; exact hmin, rfl⟩ rfl
      (le_of_total hnow hmin)
    have hends₃ := hends₃.trans hends₂
    obtain ⟨s₄, h₄, hw₄, hends₄⟩ := poll_goes cfg id hw₃ hends₃
      hmin hnow
    obtain ⟨s₅, h₅, hw₅, hends₅⟩ := lima_goes cfg (k := .shellPoll)
      (r := none) (q := goesOn) (d := 0) hw₄ ⟨Nat.zero_le _, rfl⟩ rfl (le_of_total hnow hmin)
    have hends₅ := hends₅.trans hends₄
    obtain ⟨s₆, h₆, hw₆⟩ := wait_goes cfg hw₅ hends₅ hmin hnow
    refine ⟨s₆, ends_step.mpr ⟨_, s₁, h₁, ?_⟩, hw₆⟩
    dsimp only
    rw [if_neg hdl]
    refine ends_step.mpr ⟨_, s₂, h₂, ends_step.mpr ⟨none, s₃, h₃, ?_⟩⟩
    exact ends_bind.mpr ⟨_, s₄, h₄, ends_step.mpr ⟨none, s₅, h₅, h₆⟩⟩

theorem run_goes (event : WorkflowJob) (jit : JitConfigResp) (hw : Warm t s)
    (hv : s.world.lima.vms = []) (hp : s.world.fs.tree.ino (jitPath (vmName sampleStatus.id)) = none)
    (hnow : ageSecs (t + runBudget cfg) 0 ≤ u64Max) : ∃ s', Ends (timedStep cfg)
      (runInVm cfg 1 event (vmName sampleStatus.id) jit "o" "r") s (.ok ()) s' ∧
        Warm (t + runBudget cfg) s' := by
  have hsum : t + secs startTimeout + secs copyTimeout + secs cfg.jobMaxRuntimeSecs.toNat =
      t + runBudget cfg := by unfold runBudget; omega
  have hlater : ∀ {t' : ℕ}, t' ≤ t + runBudget cfg → ageSecs t' 0 ≤ u64Max := le_of_total hnow
  obtain ⟨s₁, h₁, hw₁, hv₁⟩ := blob_goes cfg
    jit.encodedJitConfig.toUTF8.toList hw hv hp (hlater (by omega))
  obtain ⟨s₂, h₂, hw₂⟩ := start_goes cfg (vmName sampleStatus.id)
    hw₁ hv₁ (hlater (by omega))
  obtain ⟨s₃, h₃, hw₃⟩ := copy_goes cfg (vmName sampleStatus.id)
    hw₂ (hlater (by omega))
  obtain ⟨s₄, h₄, hw₄⟩ := agent_goes cfg (vmName sampleStatus.id)
    jit.runnerId hw₃ (hlater (by omega))
  rw [hsum] at hw₄
  refine ⟨s₄, ends_bind.mpr ⟨_, s₁, h₁, ends_bind.mpr ⟨_, s₂, h₂, ?_⟩⟩, hw₄⟩
  exact ends_bind.mpr ⟨_, s₃, h₃, ends_bind.mpr ⟨_, s₄, h₄, rfl, rfl⟩⟩

/-- The listing for the console runs into its timeout. -/
theorem list_goes (hw : Warm t s) (hnow : ageSecs (t + secs listTimeout) 0 ≤ u64Max) :
    ∃ s', Ends (timedStep cfg) (Lima.listInstances cfg.codec) s (.error "timed out") s' ∧
      Warm (t + secs listTimeout) s' := by
  obtain ⟨s', h, hw', -⟩ := lima_goes cfg (k := .list)
    (r := .error "timed out") (q := timesOut) (d := secs listTimeout) hw ⟨le_refl _, rfl⟩ rfl hnow
  exact ⟨s', ends_step.mpr ⟨_, s', h, rfl, rfl⟩, hw'⟩

theorem capture_goes (vm : String) (hw : Warm t s)
    (hnow : ageSecs (t + secs listTimeout) 0 ≤ u64Max) :
    ∃ s', Ends (timedStep cfg) (captureOomEvidence cfg vm) s () s' ∧
      Warm (t + secs listTimeout) s' := by
  obtain ⟨s', h, hw'⟩ := list_goes cfg hw hnow
  exact ⟨s', ends_bind.mpr ⟨_, s', ends_bind.mpr ⟨_, s', h, rfl, rfl⟩, rfl, rfl⟩, hw'⟩

/-- The commands of the teardown run into their timeouts. -/
theorem teardown_goes (vm : String) (id : ℕ) (hw : Warm t s)
    (hnow : ageSecs (t + teardownBudget cfg) 0 ≤ u64Max) :
    ∃ s', Ends (timedStep cfg) (teardown cfg vm "o" "r" id) s () s' ∧
      Warm (t + teardownBudget cfg) s' := by
  have hsum : t + secs stopTimeout + secs deleteTimeout + secs listTimeout + 4 * apiTimeout cfg =
      t + teardownBudget cfg := by unfold teardownBudget; omega
  have hlater : ∀ {t' : ℕ}, t' ≤ t + teardownBudget cfg → ageSecs t' 0 ≤ u64Max := le_of_total hnow
  obtain ⟨s₁, h₁, hw₁, -⟩ := lima_goes cfg (k := .stop vm)
    (q := timesOut) (d := secs stopTimeout) hw ⟨le_refl _, rfl⟩ rfl (hlater (by omega))
  obtain ⟨s₂, h₂, hw₂, -⟩ := lima_goes cfg (k := .delete vm)
    (q := timesOut) (d := secs deleteTimeout) hw₁ ⟨le_refl _, rfl⟩ rfl (hlater (by omega))
  obtain ⟨s₃, h₃, hw₃⟩ := list_goes cfg hw₂ (hlater (by omega))
  -- The blob stays; nobody asks.
  have hremove : timedStep cfg (.fs (.removeFile (jitPath vm))) s₃ (.error .other) _ :=
    fs_goes cfg (q := ⟨true, 0, none⟩) trivial rfl (by rw [hw₃.now]; exact hlater (by omega))
  have hw₄ : Warm (t + secs stopTimeout + secs deleteTimeout + secs listTimeout)
      (s₃.after cfg (.fs (.removeFile (jitPath vm))) (.error .other) s₃.world s₃.github) :=
    ⟨⟨hw₃.now, hw₃.mtime, hw₃.called⟩, hw₃.known⟩
  obtain ⟨s₅, h₅, hw₅⟩ := hub_goes cfg
    (k := .deleteRunner "o" "r" id) (q := answers) (r := .ok ()) hw₄
    (fun ⟨n, i, a, c, b, x, he, hg, hx⟩ => ⟨n, i, a, c, b, x, he, hg, fun _ => hx⟩) rfl
    (hlater (by omega))
  rw [hsum] at hw₅
  obtain ⟨e, hlist⟩ : ∃ e, Ends (timedStep cfg) (Lima.instanceExists cfg.codec vm) s₂
      (.error e) s₃ := ⟨_, ends_bind.mpr ⟨_, s₃, h₃, rfl, rfl⟩⟩
  have hdel : Ends (timedStep cfg) (Lima.deleteVm cfg.codec vm) s₁ (.error e) s₃ :=
    ends_step.mpr ⟨_, s₂, h₂, ends_bind.mpr ⟨_, s₃, hlist, rfl, rfl⟩⟩
  refine ⟨s₅, ends_bind.mpr ⟨_, s₁, ends_step.mpr ⟨_, s₁, h₁, rfl, rfl⟩, ?_⟩, hw₅⟩
  refine ends_bind.mpr ⟨.error e, s₃, hdel, ?_⟩
  exact ends_step.mpr ⟨_, _, hremove, ends_step.mpr ⟨_, s₅, h₅, rfl, rfl⟩⟩

/-- The completion check, where it is on, runs to its timeouts too. -/
theorem check_goes {event : WorkflowJob} (hw : Warm t s)
    (hrepo : event.repository.fullName = "o/r")
    (hnow : ageSecs (t + checkBudget cfg) 0 ≤ u64Max) : ∃ s', Ends (timedStep cfg)
      (completionCheck cfg event) s .done s' ∧ Warm (t + checkBudget cfg) s' := by
  unfold completionCheck checkBudget at *
  by_cases hc : cfg.jobCompletionCheck = true
  · rw [if_pos hc] at hnow ⊢
    rw [if_pos hc]
    obtain ⟨s', h, hw'⟩ := hub_goes cfg
      (k := .jobStatus "o" "r" event.workflowJob.id) (q := answers) (r := .ok none) hw
      (fun ⟨n, i, a, c, b, x, he, hg, hx⟩ => ⟨n, i, a, c, b, x, he, hg, fun _ => hx⟩) rfl hnow
    refine ⟨s', ?_, hw'⟩
    unfold completionActionViaApi
    rw [hrepo, show splitOnce "o/r" = some ("o", "r") by decide]
    exact ends_step.mpr ⟨_, s', h, rfl, rfl⟩
  · rw [if_neg hc] at hnow ⊢
    rw [if_neg hc]
    exact ⟨s, ⟨rfl, rfl⟩, hw⟩

/-- **A worker that takes all the time there is.** -/
theorem worker_goes (cur : String) (hc : Claimed s)
    (hnow : ageSecs (workerBudget cfg) 0 ≤ u64Max) : ∃ s', Visits (timedStep cfg)
      (worker cfg 1 cur (buildEvent "o/r" sampleStatus)) s s' ∧
        s'.clock = workerBudget cfg := by
  have hsum : 4 * apiTimeout cfg + runBudget cfg + secs listTimeout + teardownBudget cfg +
      checkBudget cfg = workerBudget cfg := by unfold workerBudget jobBudget; omega
  have hlater : ∀ {t' : ℕ}, t' ≤ workerBudget cfg → ageSecs t' 0 ≤ u64Max := le_of_total hnow
  obtain ⟨jit, s₁, h₁, hw₁, hv₁, hp₁⟩ := mint_goes cfg
    (vmName sampleStatus.id) sampleStatus.labels hc (hlater (by omega))
  obtain ⟨s₂, h₂, hw₂⟩ := run_goes cfg
    (buildEvent "o/r" sampleStatus) jit hw₁ hv₁ hp₁ (hlater (by omega))
  obtain ⟨s₃, h₃, hw₃⟩ := capture_goes cfg (vmName sampleStatus.id)
    hw₂ (hlater (by omega))
  obtain ⟨s₄, h₄, hw₄⟩ := teardown_goes cfg
    (vmName sampleStatus.id) jit.runnerId hw₃ (hlater (by omega))
  obtain ⟨s₅, h₅, hw₅⟩ := check_goes cfg hw₄
    (show (buildEvent "o/r" sampleStatus).repository.fullName = "o/r" from rfl) (hlater (by omega))
  rw [hsum] at hw₅
  have hrun : Ends (timedStep cfg) (runJob cfg 1 (buildEvent "o/r" sampleStatus)) s (.ok ())
      s₄ := by
    unfold runJob
    rw [show splitFullName (buildEvent "o/r" sampleStatus).repository.fullName =
      .ok ("o", "r") by decide]
    refine ends_step.mpr ⟨.ok jit, s₁, h₁, ends_bind.mpr ⟨_, s₂, h₂, ?_⟩⟩
    exact ends_bind.mpr ⟨_, s₃, h₃, ends_bind.mpr ⟨_, s₄, h₄, rfl, rfl⟩⟩
  refine ⟨s₅, visits_bind hrun (visits_bind h₅ (.inl rfl)), ?_⟩
  rw [State.clock, hw₅.called]
  exact hw₅.now

/-! ## In time -/

/-- GitHub answers, and no time passes. -/
def answering : (o : GitHub.Op) → GitHub.Oracle o
  | .sign _ => .ok "jwt"
  | .getInstallation .. => GitHub.found
  | .postAccessTokens .. => GitHub.mintedAs "tok"
  | .send .. => .ok ⟨⟨200, "200 OK"⟩, "", .ok ""⟩
  | .initEnter | .initSet _ | .initFail | .systemTime | .readCache | .writeCache _
  | .invalidate _ => ()

/-- Nothing is listed. -/
def noBodies : GitHub.Bodies := ⟨fun _ => .ok [], fun _ => .ok [], fun _ => .ok []⟩

/-- A daemon has started that knows the id. -/
theorem started_slowStart : GitHub.Started sampleConfig slowStart.github := by
  have hrun : (run (fun o w => GitHub.step 0 o (answering o) w)
      (GitHub.selfCheck noBodies "https://api.github.com" 1 "o" sampleConfig 1)
      ⟨.empty, none, 0, []⟩).map (fun x => (x.1.isOk, x.2.cell, x.2.now, x.2.minted)) =
      some (true, .filled 1, 0, ["tok"]) := by decide +kernel
  obtain ⟨⟨r, w⟩, hrun, hleft⟩ := Option.map_eq_some_iff.mp hrun
  simp only [Prod.mk.injEq] at hleft
  obtain ⟨hr, hcell, hnow, hminted⟩ := hleft
  have hends : Ends (GitHub.timedStep (1000000000 * 10) 0) _ _ r w :=
    ends_of_run (fun o w r w' h => ⟨0, w, answering o, Nat.zero_le _,
      ⟨by simp, fun _ h => h, fun h => h, List.Subset.refl _⟩, h⟩) hrun
  rcases r with e | ⟨⟩
  · cases hr
  · refine ⟨noBodies, _, _, _, _, _, 0, _, w, rfl, hends, ?_, fun id hid => ?_, fun h => ?_, ?_⟩
    · rw [hnow]; rfl
    · rw [hcell] at hid; exact hid
    · rw [hcell] at h; cases h
    · rw [hminted]; exact List.Subset.refl _

/-- Settings for the sample configuration. -/
def sampleSettings : Settings where
  config := sampleConfig
  apiUrl := "https://api.github.com"
  insecureAllowHttpApi := false
  controlAddr := none

theorem validate_sampleSettings : sampleSettings.validate = .ok sampleSettings := by
  have hcomplaint : sampleSettings.normalized.complaint = none := by decide +kernel
  unfold Settings.validate
  rw [hcomplaint]
  rfl

/-- The slowest worker there is is called to its finalize in time. -/
theorem inTime_slowest : ∃ s₁ s₂ m,
    Ends (timedStep sampleConfig) (writeSyntheticClaim sampleConfig sampleStatus "o/r") slowStart
      (.ok (some (jobFileName sampleStatus.id))) s₁ ∧
    Visits (timedStep sampleConfig) (worker sampleConfig 1 (jobFileName sampleStatus.id)
      (buildEvent "o/r" sampleStatus)) s₁ s₂ ∧
    s₁.mtime = some m ∧ ageSecs s₂.clock m = workerSecs sampleConfig ∧
      ageSecs s₂.clock m ≤ curClaimMaxAgeSecs sampleConfig := by
  have hage : ageSecs (workerBudget sampleConfig) 0 = workerSecs sampleConfig := by
    have hadd := ageSecs_add_secs 0 (workerSecs sampleConfig)
    rwa [Nat.zero_add, ← workerBudget_eq] at hadd
  obtain ⟨s₁, h₁, hc⟩ := claim_goes sampleConfig
  obtain ⟨s₂, h₂, hclock⟩ := worker_goes sampleConfig (jobFileName sampleStatus.id) hc
    (by rw [hage]; decide)
  obtain ⟨m, hm, hle⟩ := (inTime validate_sampleSettings).reconciled
    ⟨started_slowStart, rfl, rfl, by decide⟩ h₁ h₂
  have hzero := hc.mtime
  rw [hm, Option.some.injEq] at hzero
  subst hzero
  exact ⟨s₁, s₂, 0, h₁, h₂, hm, by rw [hclock, hage], hle⟩

end Budget

end GhaConsumer

import GhaConsumer.Interleave.Monitor
import GhaConsumer.Warmer.Warm

/-!
# Warmer — the phases of a warm

What a warm may do, said without its code: it is admitted, finds its
commit at the tip of the default branch, marks it, is granted a token,
draws a name for its scratch directory and lays it out, and only then
starts children; it has `nix` and `jq` look through the whole closure of
a target before it builds the target, and copies only what it built. At
the end it has no child left, and its directory goes. `Phase` is where a
warm is in this and `Step` what it may do there; the warmer of the source
is shown to do nothing else (`sound_monitor`).
-/

namespace GhaConsumer

namespace Warm

open Interleave Text
open Warmer (WarmCandidate buildFlakeref isCommitSha eqIgnoreAsciiCase)
open Conf (warmSlug)

/-! ## The abstract warm -/

/-- A warm that has drawn a name. -/
structure Trip where
  marked : Warmer.Instant
  token : String
  attempt : UInt64

section Trip

variable (w : Conf.Warmer) (cand : WarmCandidate)

/-- The scratch directory of an attempt. -/
def scratch (attempt : UInt64) : WarmWorkdir :=
  ⟨(w.stateDir.join "warm").join (warmSlug cand.owner cand.repo cand.headSha attempt)⟩

/-- What is warmed: the commit, on the branch that is the default. -/
def flakeref : String := buildFlakeref cand.owner cand.repo cand.headBranch cand.headSha

def installable (target : String) : String := flakeref cand ++ "#" ++ target

/-- The calls that lay the directory out, in turn. -/
def layout (s : Trip) : List Fs :=
  let d := scratch w cand s.attempt
  [.createDir d.root, .setPermissions d.root 0o700, .createDirAll d.nixConfDir,
    .setPermissions d.nixConfDir 0o700, .createDir d.rootsDir, .setPermissions d.rootsDir 0o700,
    .createNew d.netrc 0o600, .writeAll d.netrc (bytes (netrcContents s.token)),
    .createNew (d.nixConfDir.join "nix.conf") 0o600,
    .writeAll (d.nixConfDir.join "nix.conf")
      (bytes (w.nixConf (warmSlug cand.owner cand.repo cand.headSha s.attempt)))]

end Trip

/-- What is known of a target inside the scratch directory. -/
inductive Stage where
  /-- Nothing. -/
  | free
  | showing (target : String) (nix : Pid)
  /-- The output of `nix` is in hand. -/
  | taken (target : String) (nix : Pid)
  | filtering (target : String) (nix jq : Pid)
  /-- `jq` found nothing wrong. -/
  | passed (target : String) (nix jq : Pid)
  /-- And it has seen all there was to see. -/
  | checked (target : String)
  | building (target : String) (pid : Pid)
  | built (target : String)

/-- Where a warm is. -/
inductive Phase where
  | idle
  | admitted
  | onDefault
  | tip
  | timed (now : Warmer.Instant)
  | marked (m : Warmer.Instant)
  | granted (m : Warmer.Instant) (token : String)
  | named (s : Trip)
  /-- The directory is partly laid out. -/
  | laying (s : Trip) (done todo : List Fs)
  /-- The directory is laid out, and these children are running. -/
  | inside (s : Trip) (stage : Stage) (pids : List Pid)
  /-- The laying out has failed. -/
  | spoiled (s : Trip)
  /-- Nothing was built, and the mark is to go. -/
  | failed (m : Warmer.Instant)
  | over

/-- Laid out so far; inside, when that is all. -/
def Trip.lay (s : Trip) (done : List Fs) : List Fs → Phase
  | [] => .inside s .free []
  | o :: todo => .laying s done (o :: todo)

/-- The stage after a start that may have failed. -/
def Stage.started (f : Pid → Stage) : Except String Pid → Stage
  | .ok pid => f pid
  | .error _ => .free

/-- The children after it. -/
def alsoRunning (pids : List Pid) : Except String Pid → List Pid
  | .ok pid => pid :: pids
  | .error _ => pids

def without (pid : Pid) (pids : List Pid) : List Pid := pids.filter (· ≠ pid)

/-- **What a warm of a candidate may do.** -/
inductive Step (w : Conf.Warmer) (cand : WarmCandidate) : Phase → Event Resp → Phase → Prop
  | entered : Step w cand .idle ⟨.gate .tryAcquire, true⟩ .admitted
  | saturated : Step w cand .idle ⟨.gate .tryAcquire, false⟩ .over
  | onDefault :
      Step w cand .admitted
        ⟨.gate (.defaultBranch cand.owner cand.repo), .ok cand.headBranch⟩ .onDefault
  | elsewhere {r : Except String String} :
      Step w cand .admitted ⟨.gate (.defaultBranch cand.owner cand.repo), r⟩ .over
  | tip {sha : String} (h : eqIgnoreAsciiCase sha cand.headSha = true) :
      Step w cand .onDefault
        ⟨.gate (.branchTip cand.owner cand.repo cand.headBranch), .ok sha⟩ .tip
  | stale {r : Except String String} :
      Step w cand .onDefault ⟨.gate (.branchTip cand.owner cand.repo cand.headBranch), r⟩ .over
  | time {now : Warmer.Instant} : Step w cand .tip ⟨.gate .now, now⟩ (.timed now)
  | mark {m : Warmer.Instant} :
      Step w cand (.timed m) ⟨.gate (.checkAndMark cand.coalesceKey m), true⟩ (.marked m)
  | coalesced {m : Warmer.Instant} :
      Step w cand (.timed m) ⟨.gate (.checkAndMark cand.coalesceKey m), false⟩ .over
  | grant {m : Warmer.Instant} {token : String} :
      Step w cand (.marked m) ⟨.contentsReadToken cand.repoId, .ok token⟩ (.granted m token)
  | refuse {m : Warmer.Instant} {e : String} :
      Step w cand (.marked m) ⟨.contentsReadToken cand.repoId, .error e⟩ (.failed m)
  | draw {m : Warmer.Instant} {token : String} {a : UInt64} :
      Step w cand (.granted m token) ⟨.nextAttempt, a⟩ (.named ⟨m, token, a⟩)
  /-- The directory all of them are in. -/
  | parent {s : Trip} {o : Fs} (h : o = .createDirAll (w.stateDir.join "warm") ∨
      o = .setPermissions (w.stateDir.join "warm") 0o700) :
      Step w cand (.named s) ⟨.fs o, .ok ()⟩ (.named s)
  | orphan {s : Trip} {o : Fs} {e : String} (h : o = .createDirAll (w.stateDir.join "warm") ∨
      o = .setPermissions (w.stateDir.join "warm") 0o700) :
      Step w cand (.named s) ⟨.fs o, .error e⟩ (.failed s.marked)
  /-- What a dead process has left there goes first. -/
  | clean {s : Trip} {r : Except String Unit} :
      Step w cand (.named s) ⟨.fs (.removeDirAll (scratch w cand s.attempt).root), r⟩
        (s.lay [] (layout w cand s))
  | lay {s : Trip} {o : Fs} {done todo : List Fs} (h : layout w cand s = done ++ o :: todo) :
      Step w cand (.laying s done (o :: todo)) ⟨.fs o, .ok ()⟩ (s.lay (done ++ [o]) todo)
  | spoil {s : Trip} {o : Fs} {done todo : List Fs} {e : String}
      (h : layout w cand s = done ++ o :: todo) :
      Step w cand (.laying s done (o :: todo)) ⟨.fs o, .error e⟩ (.spoiled s)
  | unlay {s : Trip} {r : Except String Unit} :
      Step w cand (.spoiled s) ⟨.fs (.removeDirAll (scratch w cand s.attempt).root), r⟩
        (.failed s.marked)
  | seed {s : Trip} {r : Except String Pid} :
      Step w cand (.inside s .free [])
        ⟨.spawn (seedInputs w (scratch w cand s.attempt) (flakeref cand)), r⟩
        (.inside s .free (alsoRunning [] r))
  | look {s : Trip} {target : String} {r : Except String Pid} (h : target ∈ warmTargets) :
      Step w cand (.inside s .free [])
        ⟨.spawn (showClosure w (scratch w cand s.attempt) (installable cand target)), r⟩
        (.inside s (.started (.showing target) r) (alsoRunning [] r))
  | take {s : Trip} {target : String} {nix : Pid} {pids : List Pid} :
      Step w cand (.inside s (.showing target nix) pids) ⟨.takeStdout nix, true⟩
        (.inside s (.taken target nix) pids)
  | untaken {s : Trip} {target : String} {nix : Pid} {pids : List Pid} :
      Step w cand (.inside s (.showing target nix) pids) ⟨.takeStdout nix, false⟩
        (.inside s .free pids)
  | filter {s : Trip} {target : String} {nix : Pid} {pids : List Pid} {r : Except String Pid} :
      Step w cand (.inside s (.taken target nix) pids)
        ⟨.spawn (filterClosure w (scratch w cand s.attempt) nix), r⟩
        (.inside s (.started (.filtering target nix) r) (alsoRunning pids r))
  | pass {s : Trip} {target : String} {nix jq : Pid} {pids : List Pid} {status : ExitStatus}
      (h : status.success = true) :
      Step w cand (.inside s (.filtering target nix jq) pids) ⟨.wait jq, .exited status⟩
        (.inside s (.passed target nix jq) (without jq pids))
  | check {s : Trip} {target : String} {nix jq : Pid} {pids : List Pid} {status : ExitStatus}
      (h : status.success = true) :
      Step w cand (.inside s (.passed target nix jq) pids) ⟨.wait nix, .exited status⟩
        (.inside s (.checked target) (without nix pids))
  | build {s : Trip} {target : String} {r : Except String Pid} :
      Step w cand (.inside s (.checked target) [])
        ⟨.spawn (build w (scratch w cand s.attempt) (installable cand target) target), r⟩
        (.inside s (.started (.building target) r) (alsoRunning [] r))
  | built {s : Trip} {target : String} {pid : Pid} {pids : List Pid} {status : ExitStatus}
      (h : status.success = true) :
      Step w cand (.inside s (.building target pid) pids) ⟨.wait pid, .exited status⟩
        (.inside s (.built target) (without pid pids))
  | copy {s : Trip} {target : String} {r : Except String Pid} :
      Step w cand (.inside s (.built target) [])
        ⟨.spawn (copy w (scratch w cand s.attempt) (installable cand target)), r⟩
        (.inside s .free (alsoRunning [] r))
  /-- A child has ended, and nothing is made of it. -/
  | ended {s : Trip} {stage : Stage} {pid : Pid} {pids : List Pid} {status : ExitStatus} :
      Step w cand (.inside s stage pids) ⟨.wait pid, .exited status⟩
        (.inside s .free (without pid pids))
  | unwaited {s : Trip} {stage : Stage} {pid : Pid} {pids : List Pid} {r : Waited}
      (h : ∀ status, r ≠ .exited status) :
      Step w cand (.inside s stage pids) ⟨.wait pid, r⟩ (.inside s .free pids)
  /-- A child is made to end, or its end is waited for. -/
  | drop {s : Trip} {stage : Stage} {pid : Pid} {pids : List Pid} {o : Op} {r : Resp o}
      (h : o = .killGroup pid ∨ o = .reap pid ∨ o = .dropChild pid) :
      Step w cand (.inside s stage pids) ⟨o, r⟩ (.inside s stage (without pid pids))
  | leave {s : Trip} {r : Except String Unit} :
      Step w cand (.inside s .free [])
        ⟨.fs (.removeDirAll (scratch w cand s.attempt).root), r⟩ .over
  | clear {m : Warmer.Instant} {r : Unit} :
      Step w cand (.failed m) ⟨.gate (.clear cand.coalesceKey m), r⟩ .over

/-- What a warm may do, as a monitor. -/
def monitor (w : Conf.Warmer) (allowed : List String) : Monitor Resp WorkflowJob Phase where
  init := .idle
  next event s e s' := ∃ cand, parseCandidate event allowed = some cand ∧ Step w cand s e s'
  pre _ s := s = .idle
  fin _ s := s = .idle ∨ s = .over

/-! ## The warmer keeps to it -/

section Keeps

variable {w : Conf.Warmer} {allowed : List String} {event : WorkflowJob} {cand : WarmCandidate}
variable {s : Trip}

/-- A call of which every answer is in order. -/
theorem step_of (hc : parseCandidate event allowed = some cand) {o : Op} {A : Phase → Prop}
    {B : Resp o → Phase → Prop} (h : ∀ s r, A s → ∃ s', Step w cand s ⟨o, r⟩ s' ∧ B r s')
    {α : Type} {f : Resp o → Program α} {Q : α → Phase → Prop}
    (hf : ∀ r, (monitor w allowed).Triple event (B r) (f r) Q) :
    (monitor w allowed).Triple event A (Prog.op o >>= f) Q := by
  refine .step (B := B) (fun s r hs => ?_) hf
  obtain ⟨s', hstep, hB⟩ := h s r hs
  exact ⟨s', ⟨cand, hc, hstep⟩, hB⟩

/-- The calls lay out these parts, one after the other. -/
def Lays (w : Conf.Warmer) (allowed : List String) (event : WorkflowJob) (cand : WarmCandidate)
    (s : Trip) (os : List Fs) (p : Program (Except String Unit)) : Prop :=
  ∀ done todo, layout w cand s = done ++ (os ++ todo) →
    (monitor w allowed).Triple event (· = s.lay done (os ++ todo)) p fun r s' =>
      (r = .ok () ∧ s' = s.lay (done ++ os) todo) ∨ ((∃ e, r = .error e) ∧ s' = .spoiled s)

theorem lays_withContext (hc : parseCandidate event allowed = some cand) (context : String) (o : Fs) :
    Lays w allowed event cand s [o] (withContext context o) := by
  intro done todo hlayout
  refine step_of hc (o := Op.fs o) (B := fun r s' => (r = .ok () ∧ s' = s.lay (done ++ [o]) todo) ∨
    ((∃ e, r = .error e) ∧ s' = .spoiled s)) ?_ fun r => ?_
  · rintro _ r rfl
    rcases r with e | ⟨⟨⟩⟩
    · exact ⟨_, .spoil hlayout, .inr ⟨⟨e, rfl⟩, rfl⟩⟩
    · exact ⟨_, .lay hlayout, .inl ⟨rfl, rfl⟩⟩
  rcases r with e | ⟨⟨⟩⟩
  · exact .ret fun s' hs => .inr ⟨⟨_, rfl⟩, (hs.resolve_left (by simp)).2⟩
  · exact .ret fun s' hs => hs

theorem lays_inTurn {oss : List (List Fs)} {ps : List (Program (Except String Unit))}
    (h : List.Forall₂ (Lays w allowed event cand s) oss ps) :
    Lays w allowed event cand s oss.flatten (inTurn ps) := by
  induction h with
  | nil =>
    intro done todo _
    exact .ret fun s' hs => .inl ⟨rfl, by simpa using hs⟩
  | @cons os p oss ps hp _ ih =>
    intro done todo hlayout
    rw [List.flatten_cons, List.append_assoc] at hlayout ⊢
    refine (hp done (oss.flatten ++ todo) hlayout).bind fun r => ?_
    rcases r with e | ⟨⟨⟩⟩
    · exact .ret fun s' hs => .inr ⟨⟨e, rfl⟩, (hs.resolve_left (by simp)).2⟩
    · rw [← List.append_assoc] at hlayout
      refine ((ih (done ++ os) todo hlayout).pre fun s' hs => (hs.resolve_right (by simp)).2).post
        fun r s' hs => ?_
      rw [← List.append_assoc]
      exact hs

/-- A failure is in order as well. -/
theorem parent_triple (hc : parseCandidate event allowed = some cand) (context : String) {o : Fs}
    (ho : o = .createDirAll (w.stateDir.join "warm") ∨
      o = .setPermissions (w.stateDir.join "warm") 0o700) :
    (monitor w allowed).Triple event (· = .named s) (withContext context o) fun r s' =>
      (r = .ok () ∧ s' = .named s) ∨ ((∃ e, r = .error e) ∧ s' = .failed s.marked) := by
  refine step_of hc (o := Op.fs o) (B := fun r s' => (r = .ok () ∧ s' = .named s) ∨
    ((∃ e, r = .error e) ∧ s' = .failed s.marked)) ?_ fun r => ?_
  · rintro _ r rfl
    rcases r with e | ⟨⟨⟩⟩
    · exact ⟨_, .orphan ho, .inr ⟨⟨e, rfl⟩, rfl⟩⟩
    · exact ⟨_, .parent ho, .inl ⟨rfl, rfl⟩⟩
  rcases r with e | ⟨⟨⟩⟩
  · exact .ret fun s' hs => .inr ⟨⟨_, rfl⟩, (hs.resolve_left (by simp)).2⟩
  · exact .ret fun s' hs => hs

theorem createParent_triple (hc : parseCandidate event allowed = some cand) :
    (monitor w allowed).Triple event (· = .named s) (createDirAll0700 (w.stateDir.join "warm"))
      fun r s' => (r = .ok () ∧ s' = .named s) ∨ ((∃ e, r = .error e) ∧ s' = .failed s.marked) := by
  refine (parent_triple hc _ (.inl rfl)).bind fun r => ?_
  rcases r with e | ⟨⟨⟩⟩
  · exact .ret fun s' hs => .inr ⟨⟨e, rfl⟩, (hs.resolve_left (by simp)).2⟩
  refine ((parent_triple hc _ (.inr rfl)).pre fun s' hs => (hs.resolve_right (by simp)).2).bind
    fun r => ?_
  rcases r with e | ⟨⟨⟩⟩
  · exact .ret fun s' hs => .inr ⟨⟨e, rfl⟩, (hs.resolve_left (by simp)).2⟩
  · exact .ret fun s' hs => .inl ⟨rfl, (hs.resolve_right (by simp)).2⟩

/-- **The scratch directory is laid out**, or is gone again. -/
theorem create_triple (hc : parseCandidate event allowed = some cand) :
    (monitor w allowed).Triple event (· = .named s)
      (WarmWorkdir.create (w.stateDir.join "warm")
        (warmSlug cand.owner cand.repo cand.headSha s.attempt) s.token
        (w.nixConf (warmSlug cand.owner cand.repo cand.headSha s.attempt)))
      fun r s' => (r = .ok (scratch w cand s.attempt) ∧ s' = .inside s .free []) ∨
        ((∃ e, r = .error e) ∧ s' = .failed s.marked) := by
  refine (createParent_triple hc).bind fun r => ?_
  rcases r with e | ⟨⟨⟩⟩
  · exact .ret fun s' hs => .inr ⟨⟨e, rfl⟩, (hs.resolve_left (by simp)).2⟩
  refine step_of hc (B := fun _ s' => s' = s.lay [] (layout w cand s)) ?_ fun _ => ?_
  · intro s' r hs
    obtain rfl := (hs.resolve_right (by simp)).2
    exact ⟨_, .clean, rfl⟩
  have hlays : ∀ {os : List Fs} {ps : List (Program (Except String Unit))},
      List.Forall₂ (Lays w allowed event cand s) (os.map fun o => [o]) ps →
        Lays w allowed event cand s os (inTurn ps) := by
    intro os ps h
    have hall := lays_inTurn h
    rwa [← List.flatMap_def, List.flatMap_singleton'] at hall
  have htwo : ∀ (o o' : Fs) (c c' : String),
      Lays w allowed event cand s [o, o'] (inTurn [withContext c o, withContext c' o']) :=
    fun o o' c c' => hlays (.cons (lays_withContext hc c o) (.cons (lays_withContext hc c' o') .nil))
  refine Monitor.Triple.bind (Q := fun r s' => (r = .ok () ∧ s' = s.lay ([] ++ layout w cand s) []) ∨
    ((∃ e, r = .error e) ∧ s' = .spoiled s)) ?_ fun r => ?_
  · exact lays_inTurn (.cons (htwo _ _ _ _) (.cons (htwo _ _ _ _) (.cons (htwo _ _ _ _)
      (.cons (htwo _ _ _ _) (.cons (htwo _ _ _ _) .nil))))) [] [] rfl
  rcases r with e | ⟨⟨⟩⟩
  · refine step_of hc (B := fun _ s' => s' = .failed s.marked) ?_ fun _ => ?_
    · intro s' r hs
      obtain rfl := (hs.resolve_left (by simp)).2
      exact ⟨_, .unlay, rfl⟩
    · exact .ret fun s' hs => .inr ⟨⟨e, rfl⟩, hs⟩
  · exact .ret fun s' hs => .inl ⟨rfl, (hs.resolve_right (by simp)).2⟩

/-- Inside, with none but these children. -/
def Inside (s : Trip) (stage : Stage) (pids : List Pid) (s' : Phase) : Prop :=
  ∃ running, (∀ p ∈ running, p ∈ pids) ∧ s' = .inside s stage running

variable {stage : Stage} {pid : Pid} {pids : List Pid} {s' : Phase}

theorem inside_nil : Inside s stage [] s' ↔ s' = .inside s stage [] := by
  constructor
  · rintro ⟨running, hnone, rfl⟩
    rw [List.eq_nil_iff_forall_not_mem.mpr fun p hp => List.not_mem_nil (hnone p hp)]
  · rintro rfl
    exact ⟨[], fun p hp => hp, rfl⟩

theorem Inside.mono {pids' : List Pid} (h : Inside s stage pids s') (hsub : ∀ p ∈ pids, p ∈ pids') :
    Inside s stage pids' s' := by
  obtain ⟨running, hmem, rfl⟩ := h
  exact ⟨running, fun p hp => hsub p (hmem p hp), rfl⟩

theorem mem_of_without {running : List Pid} (h : ∀ p ∈ running, p ∈ pid :: pids) :
    ∀ p ∈ without pid running, p ∈ pids := by
  intro p hp
  obtain ⟨hp, hne⟩ := List.mem_filter.mp hp
  exact (List.mem_cons.mp (h p hp)).resolve_left (by simpa using hne)

/-- A child is done with. -/
theorem drop_triple (hc : parseCandidate event allowed = some cand) {o : Op}
    (ho : o = .killGroup pid ∨ o = .reap pid ∨ o = .dropChild pid) {α : Type}
    {f : Resp o → Program α} {Q : α → Phase → Prop}
    (hf : ∀ r, (monitor w allowed).Triple event (Inside s stage pids) (f r) Q) :
    (monitor w allowed).Triple event (Inside s stage (pid :: pids)) (Prog.op o >>= f) Q := by
  refine step_of hc (B := fun _ => Inside s stage pids) ?_ hf
  rintro _ r ⟨running, hmem, rfl⟩
  exact ⟨_, .drop ho, without pid running, mem_of_without hmem, rfl⟩

/-- A child is done with, whether or not it was. -/
theorem drop_triple' (hc : parseCandidate event allowed = some cand) {o : Op}
    (ho : o = .killGroup pid ∨ o = .reap pid ∨ o = .dropChild pid) {α : Type}
    {f : Resp o → Program α} {Q : α → Phase → Prop}
    (hf : ∀ r, (monitor w allowed).Triple event (Inside s stage pids) (f r) Q) :
    (monitor w allowed).Triple event (Inside s stage pids) (Prog.op o >>= f) Q :=
  (drop_triple hc ho hf).pre fun _ hs => hs.mono fun _ hp => List.mem_cons_of_mem _ hp

theorem killAndDrop_triple (hc : parseCandidate event allowed = some cand) :
    (monitor w allowed).Triple event (Inside s stage (pid :: pids)) (killAndDrop pid)
      fun _ => Inside s stage pids :=
  drop_triple hc (.inl rfl) fun _ => drop_triple' hc (.inr (.inr rfl)) fun _ => .ret fun _ hs => hs

/-- Whatever comes of a wait, nothing is made of it. -/
theorem wait_any (w : Conf.Warmer) (cand : WarmCandidate) (s : Trip) (stage : Stage) (pid : Pid)
    {running : List Pid} (hmem : ∀ p ∈ running, p ∈ pids) (r : Waited) :
    ∃ s', Step w cand (.inside s stage running) ⟨.wait pid, r⟩ s' ∧ Inside s .free pids s' := by
  cases r with
  | exited status => exact ⟨_, .ended, _, fun p hp => hmem p (List.mem_of_mem_filter hp), rfl⟩
  | failed e => exact ⟨_, .unwaited (by simp), running, hmem, rfl⟩
  | elapsed => exact ⟨_, .unwaited (by simp), running, hmem, rfl⟩

/-- One child from its start to its end. -/
theorem runStep_triple (hc : parseCandidate event allowed = some cand) {child : Child}
    (label : String) (before : Stage) (during : Pid → Stage) (after : Stage)
    (hspawn : ∀ r, Step w cand (.inside s before []) ⟨.spawn child, r⟩
      (.inside s (.started during r) (alsoRunning [] r)))
    (hdone : ∀ pid pids status, status.success = true →
      Step w cand (.inside s (during pid) pids) ⟨.wait pid, .exited status⟩
        (.inside s after (without pid pids))) :
    (monitor w allowed).Triple event (· = .inside s before []) (runStep w child label) fun r s' =>
      (r = .ok () ∧ s' = .inside s after []) ∨ ((∃ e, r = .error e) ∧ s' = .inside s .free []) := by
  refine step_of hc (B := fun r s' => s' = .inside s (.started during r) (alsoRunning [] r)) ?_
    fun r => ?_
  · rintro _ r rfl
    exact ⟨_, hspawn r, rfl⟩
  rcases r with e | pid
  · exact .ret fun s' hs => .inr ⟨⟨_, rfl⟩, hs⟩
  -- an exit with success leads to the stage after; anything else leaves the children to be
  -- dropped
  have hwait : (monitor w allowed).Triple event (· = .inside s (during pid) [pid])
      (waitStep w label pid) fun r s' => (r = .ok () ∧ Inside s after [pid] s') ∨
        ((∃ e, r = .error e) ∧ Inside s .free [pid] s') := by
    refine step_of hc (o := Op.wait pid) (B := fun r s' =>
      (∃ status, r = .exited status ∧ status.success = true ∧ Inside s after [pid] s') ∨
        (¬ (∃ status, r = .exited status ∧ status.success = true) ∧ Inside s .free [pid] s'))
      ?_ fun r => ?_
    · rintro _ r rfl
      by_cases hok : ∃ status, r = .exited status ∧ status.success = true
      · obtain ⟨status, rfl, hsuccess⟩ := hok
        exact ⟨_, hdone pid _ status hsuccess, .inl ⟨status, rfl, hsuccess, _,
          fun p hp => List.mem_of_mem_filter hp, rfl⟩⟩
      · obtain ⟨s', hstep, hin⟩ := wait_any w cand s (during pid) pid
          (fun p (hp : p ∈ [pid]) => hp) r
        exact ⟨s', hstep, .inr ⟨hok, hin⟩⟩
    cases r with
    | exited status =>
      show (monitor w allowed).Triple event _
        (if status.success then (.ret (.ok ()) : Program (Except String Unit))
          else .ret (.error _)) _
      by_cases hok : status.success = true
      · rw [if_pos hok]
        refine .ret fun s' hs => .inl ⟨rfl, ?_⟩
        obtain ⟨_, -, -, hin⟩ := hs.resolve_right fun h => h.1 ⟨status, rfl, hok⟩
        exact hin
      · rw [if_neg hok]
        refine .ret fun s' hs => .inr ⟨⟨_, rfl⟩, (hs.resolve_left ?_).2⟩
        rintro ⟨_, heq, hsuccess, -⟩
        cases heq
        exact hok hsuccess
    | failed e => exact .ret fun s' hs => .inr ⟨⟨_, rfl⟩, (hs.resolve_left (by simp)).2⟩
    | elapsed =>
      refine Monitor.Triple.pre (A := Inside s .free [pid]) ?_
        fun s' hs => (hs.resolve_left (by simp)).2
      exact drop_triple' hc (.inl rfl) fun _ => drop_triple' hc (.inr (.inl rfl)) fun _ =>
        .ret fun s' hs => .inr ⟨⟨_, rfl⟩, hs⟩
  refine hwait.bind fun r => ?_
  rcases r with e | ⟨⟨⟩⟩
  · refine ((drop_triple hc (.inr (.inr rfl)) fun _ => .ret fun s' hs => ?_).pre
      fun s' hs => (hs.resolve_left (by simp)).2)
    exact .inr ⟨⟨e, rfl⟩, inside_nil.mp hs⟩
  · refine ((drop_triple hc (.inr (.inr rfl)) fun _ => .ret fun s' hs => ?_).pre
      fun s' hs => (hs.resolve_right (by simp)).2)
    exact .inl ⟨rfl, inside_nil.mp hs⟩

/-- The child has ended well. -/
def Waited.Good (r : Waited) : Prop := ∃ status, r = .exited status ∧ status.success = true

theorem wait_jq {target : String} {nix jq : Pid} {r : Waited} :
    ∃ s', Step w cand (.inside s (.filtering target nix jq) [jq, nix]) ⟨.wait jq, r⟩ s' ∧
      ((r.Good ∧ Inside s (.passed target nix jq) [jq, nix] s') ∨
        (¬ r.Good ∧ Inside s .free [jq, nix] s')) := by
  by_cases hok : r.Good
  · obtain ⟨status, rfl, h⟩ := hok
    exact ⟨_, .pass h, .inl ⟨⟨status, rfl, h⟩, _, fun p hp => List.mem_of_mem_filter hp, rfl⟩⟩
  · obtain ⟨s', hstep, hin⟩ := wait_any w cand s (.filtering target nix jq) jq
      (fun p (hp : p ∈ [jq, nix]) => hp) r
    exact ⟨s', hstep, .inr ⟨hok, hin⟩⟩

/-- What the second wait leaves, the first having come to `r`. -/
theorem wait_nix {target : String} {nix jq : Pid} {r r' : Waited}
    (h : (r.Good ∧ Inside s (.passed target nix jq) [jq, nix] s') ∨
      (¬ r.Good ∧ Inside s .free [jq, nix] s')) :
    ∃ s'', Step w cand s' ⟨.wait nix, r'⟩ s'' ∧
      (((r.Good ∧ r'.Good) ∧ Inside s (.checked target) [jq, nix] s'') ∨
        (¬ (r.Good ∧ r'.Good) ∧ Inside s .free [jq, nix] s'')) := by
  rcases h with ⟨hr, running, hmem, rfl⟩ | ⟨hr, running, hmem, rfl⟩
  · by_cases hok : r'.Good
    · obtain ⟨status, rfl, h⟩ := hok
      exact ⟨_, .check h, .inl ⟨⟨hr, status, rfl, h⟩, _,
        fun p hp => hmem p (List.mem_of_mem_filter hp), rfl⟩⟩
    · obtain ⟨s'', hstep, hin⟩ := wait_any w cand s (.passed target nix jq) nix hmem r'
      exact ⟨s'', hstep, .inr ⟨fun hboth => hok hboth.2, hin⟩⟩
  · obtain ⟨s'', hstep, hin⟩ := wait_any w cand s .free nix hmem r'
    exact ⟨s'', hstep, .inr ⟨fun hboth => hr hboth.1, hin⟩⟩

/-- The wait for `jq`, then for `nix`. -/
theorem waitBoth_triple (hc : parseCandidate event allowed = some cand) {target : String}
    {nix jq : Pid} :
    (monitor w allowed).Triple event (· = .inside s (.filtering target nix jq) [jq, nix])
      (waitBoth nix jq) fun r s' => (r = true ∧ s' = .inside s (.checked target) []) ∨
        (r = false ∧ s' = .inside s .free []) := by
  have hlost : ∀ {A : Phase → Prop}, (∀ s', A s' → Inside s .free [] s') →
      (monitor w allowed).Triple event A (.ret false) fun r s' =>
        (r = true ∧ s' = .inside s (.checked target) []) ∨ (r = false ∧ s' = .inside s .free []) :=
    fun h => .ret fun s' hs => .inr ⟨rfl, inside_nil.mp (h s' hs)⟩
  -- both have ended: what is made of it is what is known by now
  have hboth : ∀ {r r' : Waited} {b : Bool}, (b = true ↔ r.Good ∧ r'.Good) →
      (monitor w allowed).Triple event
        (fun s' => ((r.Good ∧ r'.Good) ∧ Inside s (.checked target) [jq, nix] s') ∨
          (¬ (r.Good ∧ r'.Good) ∧ Inside s .free [jq, nix] s'))
        (op (.dropChild jq) >>= fun _ => op (.dropChild nix) >>= fun _ => .ret b) fun r s' =>
          (r = true ∧ s' = .inside s (.checked target) []) ∨
            (r = false ∧ s' = .inside s .free []) := by
    intro r r' b hb
    by_cases hgood : r.Good ∧ r'.Good
    · refine (drop_triple hc (.inr (.inr rfl)) fun _ => drop_triple hc (.inr (.inr rfl)) fun _ =>
        .ret fun s' hs => .inl ⟨hb.mpr hgood, inside_nil.mp hs⟩).pre fun s' hs => ?_
      exact (hs.resolve_right fun h => h.1 hgood).2
    · have hfalse : b = false := Bool.eq_false_iff.mpr fun h => hgood (hb.mp h)
      refine (drop_triple hc (.inr (.inr rfl)) fun _ => drop_triple hc (.inr (.inr rfl)) fun _ =>
        .ret fun s' hs => .inr ⟨hfalse, inside_nil.mp hs⟩).pre fun s' hs => ?_
      exact (hs.resolve_left fun h => hgood h.1).2
  have hgone : ∀ {r : Waited},
      (monitor w allowed).Triple event
        (fun s' => ((r.Good ∧ Waited.elapsed.Good) ∧ Inside s (.checked target) [jq, nix] s') ∨
          (¬ (r.Good ∧ Waited.elapsed.Good) ∧ Inside s .free [jq, nix] s'))
        (op (.dropChild jq) >>= fun _ => killAndDrop nix >>= fun _ => .ret false) fun r s' =>
          (r = true ∧ s' = .inside s (.checked target) []) ∨
            (r = false ∧ s' = .inside s .free []) := by
    intro r
    refine (drop_triple hc (.inr (.inr rfl)) fun _ => (killAndDrop_triple hc).bind fun _ =>
      hlost fun s' hs => hs).pre fun s' hs => (hs.resolve_left ?_).2
    rintro ⟨⟨-, status, heq, -⟩, -⟩
    cases heq
  refine step_of hc (o := Op.wait jq) (B := fun r s' =>
    (r.Good ∧ Inside s (.passed target nix jq) [jq, nix] s') ∨
      (¬ r.Good ∧ Inside s .free [jq, nix] s')) ?_ fun r => ?_
  · rintro _ r rfl
    exact wait_jq
  have hfailed : ∀ {e : String}, ¬ (Waited.failed e).Good := by
    rintro e ⟨status, heq, -⟩
    cases heq
  have hexited : ∀ {status : ExitStatus}, (Waited.exited status).Good ↔ status.success = true := by
    intro status
    refine ⟨?_, fun h => ⟨status, rfl, h⟩⟩
    rintro ⟨_, heq, h⟩
    cases heq
    exact h
  cases r with
  | elapsed =>
    refine Monitor.Triple.pre (A := Inside s .free [jq, nix]) ?_ fun s' hs => (hs.resolve_left ?_).2
    · exact (killAndDrop_triple hc).bind fun _ => (killAndDrop_triple hc).bind fun _ =>
        hlost fun s' hs => hs
    · rintro ⟨⟨status, heq, -⟩, -⟩
      cases heq
  | failed e =>
    refine step_of hc (o := Op.wait nix) (fun s' r' hs => wait_nix hs) fun r' => ?_
    cases r' with
    | elapsed => exact hgone
    | failed e' => exact hboth (by simp [hfailed])
    | exited status' => exact hboth (by simp [hfailed])
  | exited status =>
    refine step_of hc (o := Op.wait nix) (fun s' r' hs => wait_nix hs) fun r' => ?_
    cases r' with
    | elapsed => exact hgone
    | failed e' => exact hboth (by simp [hfailed])
    | exited status' => exact hboth (by simp [hexited, and_comm])

/-- The closure has been looked through, or nothing is known of it. -/
theorem closure_triple (hc : parseCandidate event allowed = some cand) {target : String}
    (htarget : target ∈ warmTargets) :
    (monitor w allowed).Triple event (· = .inside s .free [])
      (closureIsHostBuildSafe w (scratch w cand s.attempt) (installable cand target)) fun r s' =>
        (r = true ∧ s' = .inside s (.checked target) []) ∨ (r = false ∧ s' = .inside s .free []) := by
  have hfalse : ∀ {A : Phase → Prop}, (∀ s', A s' → Inside s .free [] s') →
      (monitor w allowed).Triple event A (.ret false) fun r s' =>
        (r = true ∧ s' = .inside s (.checked target) []) ∨
          (r = false ∧ s' = .inside s .free []) :=
    fun h => .ret fun s' hs => .inr ⟨rfl, inside_nil.mp (h s' hs)⟩
  have hkill : ∀ {nix : Pid} {A : Phase → Prop}, (∀ s', A s' → Inside s .free [nix] s') →
      (monitor w allowed).Triple event A (killAndDrop nix >>= fun _ => .ret false) fun r s' =>
        (r = true ∧ s' = .inside s (.checked target) []) ∨
          (r = false ∧ s' = .inside s .free []) :=
    fun h => ((killAndDrop_triple hc).pre h).bind fun _ => hfalse fun _ hs => hs
  refine step_of hc (B := fun r s' =>
    s' = .inside s (.started (.showing target) r) (alsoRunning [] r)) ?_ fun r => ?_
  · rintro _ r rfl
    exact ⟨_, .look htarget, rfl⟩
  rcases r with e | nix
  · exact hfalse fun s' hs => inside_nil.mpr hs
  refine step_of hc (o := Op.takeStdout nix) (B := fun r s' =>
    s' = .inside s (if r = true then .taken target nix else .free) [nix]) ?_ fun r => ?_
  · rintro _ r rfl
    cases r with
    | true => exact ⟨_, .take, rfl⟩
    | false => exact ⟨_, .untaken, rfl⟩
  cases r with
  | false => exact hkill fun s' hs => ⟨[nix], fun p hp => hp, hs⟩
  | true =>
    refine step_of hc (B := fun r s' =>
      s' = .inside s (.started (.filtering target nix) r) (alsoRunning [nix] r)) ?_ fun r => ?_
    · rintro _ r rfl
      exact ⟨_, .filter, rfl⟩
    rcases r with e | jq
    · exact hkill fun s' hs => ⟨[nix], fun p hp => hp, hs⟩
    exact waitBoth_triple hc

/-- One target after the other, each from a directory with no child in it. -/
theorem warmTarget_triple (hc : parseCandidate event allowed = some cand) {target : String}
    (htarget : target ∈ warmTargets) :
    (monitor w allowed).Triple event (· = .inside s .free [])
      (warmTarget w (scratch w cand s.attempt) (flakeref cand) target)
      fun _ s' => s' = .inside s .free [] := by
  refine (closure_triple hc htarget).bind fun safe => ?_
  cases safe with
  | false => exact .ret fun s' hs => (hs.resolve_left (by simp)).2
  | true =>
    have hbuild := runStep_triple (w := w) (s := s) hc "nix build" (.checked target) (.building target)
      (.built target) (fun r => Step.build) fun pid pids status h => .built h
    refine (hbuild.pre fun s' hs => (hs.resolve_right (by simp)).2).bind fun r => ?_
    rcases r with e | ⟨⟨⟩⟩
    · exact .ret fun s' hs => (hs.resolve_left (by simp)).2
    have hcopy := runStep_triple (w := w) (s := s) hc "warm-cache.sh" (.built target) (fun _ => .free) .free
      (fun r => by cases r <;> exact Step.copy) fun pid pids status _ => .ended
    refine (hcopy.pre fun s' hs => (hs.resolve_right (by simp)).2).bind fun r => ?_
    refine .ret fun s' hs => ?_
    rcases hs with ⟨-, hs⟩ | ⟨-, hs⟩ <;> exact hs

theorem warmEach_triple (hc : parseCandidate event allowed = some cand) {targets : List String}
    (htargets : ∀ t ∈ targets, t ∈ warmTargets) :
    (monitor w allowed).Triple event (· = .inside s .free [])
      (warmEach w (scratch w cand s.attempt) (flakeref cand) targets)
      fun _ s' => s' = .inside s .free [] := by
  induction targets with
  | nil => exact .ret fun s' hs => hs
  | cons target rest ih =>
    have hrest := ih fun t ht => htargets t (List.mem_cons_of_mem _ ht)
    exact (warmTarget_triple hc (htargets target List.mem_cons_self)).bind fun _ => hrest

theorem runWarm_triple (hc : parseCandidate event allowed = some cand) {m : Warmer.Instant} :
    (monitor w allowed).Triple event (· = .marked m) (runWarm w cand cand.headBranch) fun r s' =>
      (r = true ∧ s' = .over) ∨ (r = false ∧ s' = .failed m) := by
  refine step_of hc (o := Op.contentsReadToken cand.repoId) (B := fun r s' =>
    (∃ token, r = .ok token ∧ s' = .granted m token) ∨ ((∃ e, r = .error e) ∧ s' = .failed m))
    ?_ fun r => ?_
  · rintro _ (e | token) rfl
    · exact ⟨_, .refuse, .inr ⟨⟨e, rfl⟩, rfl⟩⟩
    · exact ⟨_, .grant, .inl ⟨token, rfl, rfl⟩⟩
  rcases r with e | token
  · exact .ret fun s' hs => .inr ⟨rfl, (hs.resolve_left (by simp)).2⟩
  refine step_of hc (B := fun a s' => s' = .named ⟨m, token, a⟩) ?_ fun a => ?_
  · intro s' a hs
    obtain ⟨_, heq, rfl⟩ := hs.resolve_right (by simp)
    cases heq
    exact ⟨_, .draw, rfl⟩
  refine (create_triple (s := ⟨m, token, a⟩) hc).bind fun r => ?_
  rcases r with e | d
  · exact .ret fun s' hs => .inr ⟨rfl, (hs.resolve_left (by simp)).2⟩
  by_cases hd : d = scratch w cand a
  · subst hd
    have hseed := runStep_triple (w := w) (s := ⟨m, token, a⟩) hc "warm-flake-inputs.sh" .free
      (fun _ => .free) .free (fun r => by cases r <;> exact Step.seed) fun pid pids status _ => .ended
    refine ((hseed.pre fun s' hs => (hs.resolve_right (by simp)).2).post fun _ s' hs => ?_).bind
      fun _ => (warmEach_triple (s := ⟨m, token, a⟩) hc fun _ ht => ht).bind fun _ => ?_
    · rcases hs with ⟨-, hs⟩ | ⟨-, hs⟩ <;> exact hs
    refine step_of hc (B := fun _ s' => s' = .over) ?_ fun _ => .ret fun s' hs => .inl ⟨rfl, hs⟩
    rintro _ r rfl
    exact ⟨_, .leave, rfl⟩
  · intro s' hs
    rcases hs with ⟨heq, -⟩ | ⟨⟨e, heq⟩, -⟩
    · cases heq
      exact absurd rfl hd
    · cases heq

/-- A call of `run_candidate`'s own. -/
theorem gate_step (hc : parseCandidate event allowed = some cand) {o : Warmer.Op}
    (himpl : impl w o = op (.gate o)) {A : Phase → Prop} {B : Warmer.Resp o → Phase → Prop}
    (h : ∀ s r, A s → ∃ s', Step w cand s ⟨.gate o, r⟩ s' ∧ B r s') {α : Type}
    {f : Warmer.Resp o → Warmer.Program α} {Q : α → Phase → Prop}
    (hf : ∀ r, (monitor w allowed).Triple event (B r) ((f r).lower (impl w)) Q) :
    (monitor w allowed).Triple event A ((Prog.op o >>= f).lower (impl w)) Q := by
  rw [Prog.lower_bind, Prog.lower_op, himpl]
  exact step_of hc (o := Op.gate o) h hf

theorem warmOnce_keeps (hc : parseCandidate event allowed = some cand) :
    (monitor w allowed).Triple event (· = .tip)
      ((Warmer.warmOnce cand cand.headBranch).lower (impl w)) fun _ s' => s' = .over := by
  refine gate_step hc rfl (B := fun now s' => s' = .timed now) ?_ fun m => ?_
  · rintro _ now rfl
    exact ⟨_, .time, rfl⟩
  refine gate_step hc rfl (B := fun fresh s' => s' = if fresh = true then .marked m else .over) ?_
    fun fresh => ?_
  · rintro _ (- | -) rfl
    · exact ⟨_, .coalesced, rfl⟩
    · exact ⟨_, .mark, rfl⟩
  cases fresh with
  | false => exact .ret fun s' hs => hs
  | true =>
    refine Monitor.Triple.lowerBind (p := Prog.op (Warmer.Op.runWarm cand cand.headBranch))
      (B := fun r s' => (r = true ∧ s' = .over) ∨ (r = false ∧ s' = .failed m)) ?_ fun warmed => ?_
    · rw [Prog.lower_op]
      exact runWarm_triple hc
    cases warmed with
    | true => exact .ret fun s' hs => (hs.resolve_right (by simp)).2
    | false =>
      refine gate_step hc rfl (B := fun _ s' => s' = .over) ?_ fun _ => .ret fun s' hs => hs
      intro s' r hs
      obtain rfl := (hs.resolve_left (by simp)).2
      exact ⟨_, .clear, rfl⟩

theorem confirm_keeps (hc : parseCandidate event allowed = some cand) :
    (monitor w allowed).Triple event (· = .admitted) ((Warmer.confirm cand).lower (impl w))
      fun r s' => (r = some cand.headBranch ∧ s' = .tip) ∨ (r = none ∧ s' = .over) := by
  -- first the default branch, then its tip; a warm of another branch or commit is over
  refine gate_step hc rfl (B := fun (r : Except String String) s' =>
    s' = if r = .ok cand.headBranch then .onDefault else .over) ?_ fun r => ?_
  · rintro _ r rfl
    by_cases hr : r = .ok cand.headBranch
    · subst hr
      exact ⟨_, .onDefault, (if_pos rfl).symm⟩
    · exact ⟨_, .elsewhere, (if_neg hr).symm⟩
  cases r with
  | error e => exact .ret fun s' hs => .inr ⟨rfl, hs⟩
  | ok branch =>
    by_cases hbranch : cand.headBranch ≠ branch
    · simp only [if_pos hbranch]
      refine .ret fun s' hs => .inr ⟨rfl, hs.trans (if_neg ?_)⟩
      rintro ⟨⟩
      exact hbranch rfl
    simp only [if_neg hbranch]
    obtain rfl := not_not.mp hbranch
    refine gate_step hc rfl (B := fun (r : Except String String) s' =>
      (∃ sha, r = .ok sha ∧ eqIgnoreAsciiCase sha cand.headSha = true ∧ s' = .tip) ∨
        (¬ (∃ sha, r = .ok sha ∧ eqIgnoreAsciiCase sha cand.headSha = true) ∧ s' = .over))
      ?_ fun r => ?_
    · intro s' r hs
      obtain rfl := hs.trans (if_pos rfl)
      by_cases hr : ∃ sha, r = .ok sha ∧ eqIgnoreAsciiCase sha cand.headSha = true
      · obtain ⟨sha, rfl, htip⟩ := hr
        exact ⟨_, .tip htip, .inl ⟨sha, rfl, htip, rfl⟩⟩
      · exact ⟨_, .stale, .inr ⟨hr, rfl⟩⟩
    cases r with
    | error e => exact .ret fun s' hs => .inr ⟨rfl, (hs.resolve_left (by simp)).2⟩
    | ok sha =>
      show (monitor w allowed).Triple event _ ((if eqIgnoreAsciiCase sha cand.headSha = true then
        .ret (some cand.headBranch) else .ret none : Warmer.Program _).lower (impl w)) _
      by_cases htip : eqIgnoreAsciiCase sha cand.headSha = true
      · rw [if_pos htip]
        refine .ret fun s' hs => .inl ⟨rfl, ?_⟩
        obtain ⟨_, -, -, rfl⟩ := hs.resolve_right fun h => h.1 ⟨sha, rfl, htip⟩
        rfl
      · rw [if_neg htip]
        refine .ret fun s' hs => .inr ⟨rfl, (hs.resolve_left ?_).2⟩
        rintro ⟨_, heq, h, -⟩
        cases heq
        exact htip h

theorem maybeTrigger_keeps :
    (monitor w allowed).Triple event (· = .idle) (maybeTrigger w allowed event)
      fun _ s' => s' = .idle ∨ s' = .over := by
  unfold maybeTrigger
  split
  · exact .ret fun s' hs => .inl hs
  · rename_i cand hc
    refine Monitor.Triple.post (Q := fun _ s' => s' = .over) ?_ fun _ s' hs => .inr hs
    refine gate_step hc rfl (B := fun r s' => s' = if r = true then .admitted else .over) ?_
      fun permit => ?_
    · rintro _ (- | -) rfl
      · exact ⟨_, .saturated, rfl⟩
      · exact ⟨_, .entered, rfl⟩
    cases permit with
    | false => exact .ret fun s' hs => hs
    | true =>
      refine Monitor.Triple.lowerBind (confirm_keeps hc) fun r => ?_
      cases r with
      | none => exact .ret fun s' hs => (hs.resolve_left (by simp)).2
      | some branch =>
        by_cases hbranch : branch = cand.headBranch
        · subst hbranch
          exact (warmOnce_keeps hc).pre fun s' hs => (hs.resolve_right (by simp)).2
        · intro s' hs
          rcases hs with ⟨heq, -⟩ | ⟨heq, -⟩
          · cases heq
            exact absurd rfl hbranch
          · cases heq

end Keeps

theorem sound_monitor {w : Conf.Warmer} {allowed : List String} :
    (monitor w allowed).Sound (machine w allowed) where
  body event := maybeTrigger_keeps.bind fun _ => .ret fun _ hs => hs
  forks h := by cases h
  crash h := by cases h

end Warm

end GhaConsumer

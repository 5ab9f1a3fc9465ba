import GhaConsumer.Interleave.Once
import GhaConsumer.Warmer.Phases

/-!
# Warmer — what is built and signed

A warm ingests an untrusted flake and emits signed bytes. Every child of
every run is started in a directory of its own, laid out in full, for a
commit of an allowed repository that GitHub has confirmed as the tip of
the default branch; a target is built only after its whole closure was
looked through and passed, and copied only after it was built
(`trusted_of_spawn`).
-/

namespace GhaConsumer

namespace Warm

open Interleave Text
open Warmer (WarmCandidate isCommitSha eqIgnoreAsciiCase)

/-! ## What a phase says of the calls so far -/

/-- The child was started. -/
def Spawned (child : Child) (pid : Pid) (e : Event Resp) : Prop := e = ⟨.spawn child, .ok pid⟩

/-- The child has ended, and well. -/
def Ended (pid : Pid) (e : Event Resp) : Prop :=
  ∃ status : ExitStatus, status.success = true ∧ e = ⟨.wait pid, .exited status⟩

/-- The call was made. -/
def Done (o : Fs) (e : Event Resp) : Prop := e = ⟨.fs o, .ok ()⟩

section Shows

variable (w : Conf.Warmer) (cand : WarmCandidate) (s : Trip)

/-- The calls that confirm a tip and mark it, the latest first. -/
def confirming (m : Warmer.Instant) : List (Event Resp → Prop) :=
  [(· = ⟨.gate (.checkAndMark cand.coalesceKey m), true⟩),
    fun e => ∃ sha, eqIgnoreAsciiCase sha cand.headSha = true ∧
      e = ⟨.gate (.branchTip cand.owner cand.repo cand.headBranch), .ok sha⟩,
    (· = ⟨.gate (.defaultBranch cand.owner cand.repo), .ok cand.headBranch⟩),
    (· = ⟨.gate .tryAcquire, true⟩)]

/-- The calls up to the name of the directory, the latest first. -/
def drawing : List (Event Resp → Prop) :=
  (· = ⟨.nextAttempt, s.attempt⟩) :: (· = ⟨.contentsReadToken cand.repoId, .ok s.token⟩) ::
    confirming cand s.marked

/-- The calls up to the layout as it is so far, the latest first. -/
def layingOut (done : List Fs) : List (Event Resp → Prop) :=
  done.reverse.map Done ++
    (fun e => ∃ r, e = ⟨.fs (.removeDirAll (scratch w cand s.attempt).root), r⟩) :: drawing cand s

/-- The calls up to the directory itself, made or not, the latest first. -/
def spoiling : List (Event Resp → Prop) :=
  (fun e => ∃ r, e = ⟨.fs (.createDir (scratch w cand s.attempt).root), r⟩) ::
    layingOut w cand s []

/-- The calls up to the whole directory, the latest first. -/
def laidOut : List (Event Resp → Prop) := layingOut w cand s (layout w cand s)

/-- The calls up to the start of `nix`, on a target's closure. -/
def shown (target : String) (nix : Pid) : List (Event Resp → Prop) :=
  Spawned (showClosure w (scratch w cand s.attempt) (installable cand target)) nix ::
    laidOut w cand s

/-- Up to the start of `jq`, on the output of `nix`. -/
def filtered (target : String) (nix jq : Pid) : List (Event Resp → Prop) :=
  Spawned (filterClosure w (scratch w cand s.attempt) nix) jq :: shown w cand s target nix

/-- Up to the ends of both. -/
def lookedThrough (target : String) (nix jq : Pid) : List (Event Resp → Prop) :=
  Ended nix :: Ended jq :: filtered w cand s target nix jq

/-- The build of a target that has been looked through. -/
def begun (target : String) (nix jq pid : Pid) : List (Event Resp → Prop) :=
  Spawned (build w (scratch w cand s.attempt) (installable cand target) target) pid ::
    lookedThrough w cand s target nix jq

def Stage.Shows : Stage → Interleave.History Resp → Prop
  | .free, ρ => Ordered (laidOut w cand s) ρ
  | .showing target nix, ρ | .taken target nix, ρ =>
    target ∈ warmTargets ∧ Ordered (shown w cand s target nix) ρ
  | .filtering target nix jq, ρ =>
    target ∈ warmTargets ∧ Ordered (filtered w cand s target nix jq) ρ
  | .passed target nix jq, ρ =>
    target ∈ warmTargets ∧ Ordered (Ended jq :: filtered w cand s target nix jq) ρ
  | .checked target, ρ =>
    target ∈ warmTargets ∧ ∃ nix jq, Ordered (lookedThrough w cand s target nix jq) ρ
  | .building target pid, ρ =>
    target ∈ warmTargets ∧ ∃ nix jq, Ordered (begun w cand s target nix jq pid) ρ
  | .built target, ρ =>
    target ∈ warmTargets ∧ ∃ nix jq pid,
      Ordered (Ended pid :: begun w cand s target nix jq pid) ρ

def Phase.Shows : Phase → Interleave.History Resp → Prop
  | .idle, _ | .failed _, _ | .over, _ => True
  | .admitted, ρ => Ordered ((confirming cand 0).drop 3) ρ
  | .onDefault, ρ => Ordered ((confirming cand 0).drop 2) ρ
  | .tip, ρ | .timed _, ρ => Ordered ((confirming cand 0).drop 1) ρ
  | .marked m, ρ => Ordered (confirming cand m) ρ
  | .granted m token, ρ =>
    Ordered ((· = ⟨.contentsReadToken cand.repoId, .ok token⟩) :: confirming cand m) ρ
  | .named s, ρ => Ordered (drawing cand s) ρ
  | .spoiled s, ρ => Ordered (spoiling w cand s) ρ
  | .laying s done _, ρ => Ordered (layingOut w cand s done) ρ
  | .inside s stage _, ρ => stage.Shows w cand s ρ

end Shows

section Shows

variable {w : Conf.Warmer} {allowed : List String} {cand : WarmCandidate} {s : Trip}
variable {stage : Stage} {ρ : Interleave.History Resp} {e : Event Resp} {phase phase' : Phase}

/-- Whatever else is known, the directory is laid out. -/
theorem Stage.Shows.laidOut (h : stage.Shows w cand s ρ) : Ordered (laidOut w cand s) ρ := by
  cases stage with
  | free => exact h
  | showing | taken => exact h.2.tail
  | filtering => exact h.2.tail.tail
  | passed => exact h.2.tail.tail.tail
  | checked =>
    obtain ⟨-, nix, jq, h⟩ := h
    exact h.tail.tail.tail.tail
  | building =>
    obtain ⟨-, nix, jq, h⟩ := h
    exact h.tail.tail.tail.tail.tail
  | built =>
    obtain ⟨-, nix, jq, pid, h⟩ := h
    exact h.tail.tail.tail.tail.tail.tail

/-- Any other call leaves it at that. -/
theorem Stage.Shows.cons (h : stage.Shows w cand s ρ) (e : Event Resp) :
    stage.Shows w cand s (e :: ρ) := by
  cases stage with
  | free => exact Ordered.cons h e
  | showing | taken | filtering | passed => exact ⟨h.1, h.2.cons e⟩
  | checked =>
    obtain ⟨ht, nix, jq, h⟩ := h
    exact ⟨ht, nix, jq, h.cons e⟩
  | building =>
    obtain ⟨ht, nix, jq, h⟩ := h
    exact ⟨ht, nix, jq, h.cons e⟩
  | built =>
    obtain ⟨ht, nix, jq, pid, h⟩ := h
    exact ⟨ht, nix, jq, pid, h.cons e⟩

/-- Where nothing is made of a call, the directory is still laid out. -/
theorem shows_free {pids pids' : List Pid} (h : (Phase.inside s stage pids).Shows w cand ρ)
    (e : Event Resp) : (Phase.inside s .free pids').Shows w cand (e :: ρ) :=
  (show stage.Shows w cand s ρ from h).laidOut.cons e

theorem shows_lay {done todo : List Fs} (hlayout : layout w cand s = done ++ todo)
    (h : Ordered (layingOut w cand s done) ρ) : (s.lay done todo).Shows w cand ρ := by
  cases todo with
  | nil =>
    rw [List.append_nil] at hlayout
    show Ordered (layingOut w cand s (layout w cand s)) ρ
    rwa [hlayout]
  | cons o todo => exact h

/-- A layout begins with the directory itself. -/
theorem ordered_of_layingOut {done : List Fs}
    (h : Ordered (layingOut w cand s (.createDir (scratch w cand s.attempt).root :: done)) ρ) :
    Ordered (spoiling w cand s) ρ := by
  unfold layingOut at h
  rw [List.reverse_cons, List.map_append, List.append_assoc] at h
  obtain ⟨e, σ, hsuf, rfl, hrest⟩ := Ordered.right h
  exact ⟨_, σ, hsuf, ⟨_, rfl⟩, hrest⟩

theorem ordered_of_laidOut (h : Ordered (laidOut w cand s) ρ) : Ordered (spoiling w cand s) ρ :=
  ordered_of_layingOut h

/-- Whichever call of the layout fails, the directory has been asked for. -/
theorem ordered_spoiling {done todo : List Fs} {o : Fs} {r : Except String Unit}
    (hlayout : layout w cand s = done ++ o :: todo) (h : Ordered (layingOut w cand s done) ρ) :
    Ordered (spoiling w cand s) (⟨.fs o, r⟩ :: ρ) := by
  cases done with
  | nil =>
    obtain ⟨rfl, -⟩ := List.cons.inj hlayout
    exact Ordered.push h ⟨r, rfl⟩
  | cons o' done =>
    obtain ⟨rfl, -⟩ := List.cons.inj hlayout
    exact (ordered_of_layingOut h).cons _

/-- **The phase keeps saying what was called**, and in which order. -/
theorem shows_step (h : phase.Shows w cand ρ) (hs : Step w cand phase e phase') :
    phase'.Shows w cand (e :: ρ) := by
  -- each step either says one thing more of the past, or forgets
  cases hs with
  | entered => exact Ordered.push trivial rfl
  | onDefault => exact Ordered.push h rfl
  | tip htip => exact Ordered.push h ⟨_, htip, rfl⟩
  | time => exact Ordered.cons h _
  | mark | grant | draw => exact Ordered.push h rfl
  | parent => exact Ordered.cons h _
  | clean => exact shows_lay rfl (Ordered.push h ⟨_, rfl⟩)
  | @lay s o done todo hlayout =>
    refine shows_lay (by rw [hlayout, List.append_assoc]; rfl) ?_
    unfold layingOut
    rw [List.reverse_append, List.map_append, List.append_assoc]
    exact Ordered.push h rfl
  | seed | copy => exact shows_free h _
  | @look s target r ht =>
    cases r with
    | error => exact shows_free h _
    | ok nix => exact ⟨ht, Ordered.push h rfl⟩
  | take => exact ⟨h.1, h.2.cons _⟩
  | untaken => exact shows_free h _
  | @filter s target nix pids r =>
    cases r with
    | error => exact shows_free h _
    | ok jq => exact ⟨h.1, h.2.push rfl⟩
  | pass hok => exact ⟨h.1, h.2.push ⟨_, hok, rfl⟩⟩
  | @check s target nix jq pids status hok => exact ⟨h.1, nix, jq, h.2.push ⟨_, hok, rfl⟩⟩
  | @build s target r =>
    cases r with
    | error => exact shows_free h _
    | ok pid =>
      obtain ⟨ht, nix, jq, h⟩ := h
      exact ⟨ht, nix, jq, h.push rfl⟩
  | @built s target pid pids status hok =>
    obtain ⟨ht, nix, jq, h⟩ := h
    exact ⟨ht, nix, jq, pid, h.push ⟨_, hok, rfl⟩⟩
  | spoil hlayout => exact ordered_spoiling hlayout h
  | ended | unwaited => exact shows_free h _
  | @drop s stage pid pids o r ho => exact (show stage.Shows w cand s ρ from h).cons _
  | _ => trivial

end Shows

/-! ## Every child -/

/-- What a candidate is: of a repository of the allowlist, at a commit. -/
structure Eligible (allowed : List String) (event : WorkflowJob) (cand : WarmCandidate) : Prop where
  allowed : event.repository.fullName ∈ allowed
  repo : event.repository.fullName = cand.owner ++ "/" ++ cand.repo
  repoId : event.repository.id = cand.repoId
  branch : event.workflowJob.headBranch = some cand.headBranch
  sha : event.workflowJob.headSha = some cand.headSha
  commit : isCommitSha cand.headSha = true

theorem eligible_of_parse {allowed : List String} {event : WorkflowJob} {cand : WarmCandidate}
    (h : parseCandidate event allowed = some cand) : Eligible allowed event cand := by
  unfold parseCandidate at h
  obtain ⟨branch, hbranch, h⟩ := Option.bind_eq_some_iff.mp h
  obtain ⟨sha, hsha, h⟩ := Option.bind_eq_some_iff.mp h
  by_cases hcommit : isCommitSha sha = true
  · rw [hcommit] at h
    by_cases hallowed : event.repository.fullName ∈ allowed
    · rw [if_neg (by simp), if_neg (not_not.mpr hallowed)] at h
      obtain ⟨⟨owner, repo⟩, hsplit, h⟩ := Option.bind_eq_some_iff.mp h
      have h : (if owner = "" ∨ repo = "" then none
        else some (⟨owner, repo, event.repository.id, branch, sha⟩ : WarmCandidate)) = some cand := h
      by_cases hempty : owner = "" ∨ repo = ""
      · rw [if_pos hempty] at h
        cases h
      · rw [if_neg hempty] at h
        cases h
        exact ⟨hallowed, splitOnce_eq hsplit, rfl, hbranch, hsha, hcommit⟩
    · rw [if_neg (by simp), if_pos hallowed] at h
      cases h
  · rw [if_pos (by simp [hcommit])] at h
    cases h

/-- **On what terms a child is started**, its calls so far being these. -/
inductive Trusted (w : Conf.Warmer) (cand : WarmCandidate) (s : Trip) (ρ : Interleave.History Resp) :
    Child → Prop
  | inputs : Trusted w cand s ρ (seedInputs w (scratch w cand s.attempt) (flakeref cand))
  | closure (target : String) (h : target ∈ warmTargets) :
      Trusted w cand s ρ (showClosure w (scratch w cand s.attempt) (installable cand target))
  | filter (target : String) (nix : Pid) (h : Ordered (shown w cand s target nix) ρ) :
      Trusted w cand s ρ (filterClosure w (scratch w cand s.attempt) nix)
  /-- A target is built once `nix` has shown its closure and `jq` has
  passed it. -/
  | build (target : String) (nix jq : Pid) (ht : target ∈ warmTargets)
      (h : Ordered (lookedThrough w cand s target nix jq) ρ) :
      Trusted w cand s ρ (build w (scratch w cand s.attempt) (installable cand target) target)
  /-- And it is signed and copied once it is built. -/
  | copy (target : String) (nix jq pid : Pid) (ht : target ∈ warmTargets)
      (h : Ordered (Ended pid :: begun w cand s target nix jq pid) ρ) :
      Trusted w cand s ρ (copy w (scratch w cand s.attempt) (installable cand target))

theorem trusted_of_step {w : Conf.Warmer} {cand : WarmCandidate} {phase phase' : Phase}
    {ρ : Interleave.History Resp} {child : Child} {r : Except String Pid}
    (h : phase.Shows w cand ρ) (hs : Step w cand phase ⟨.spawn child, r⟩ phase') :
    ∃ s, Ordered (laidOut w cand s) ρ ∧ Trusted w cand s ρ child := by
  cases hs with
  | @seed s => exact ⟨s, h, .inputs⟩
  | @look s target _ ht => exact ⟨s, h, .closure target ht⟩
  | @filter s target nix => exact ⟨s, h.2.tail, .filter target nix h.2⟩
  | @build s target =>
    obtain ⟨ht, nix, jq, h⟩ := h
    exact ⟨s, h.tail.tail.tail.tail, .build target nix jq ht h⟩
  | @copy s target =>
    obtain ⟨ht, nix, jq, pid, h⟩ := h
    exact ⟨s, h.tail.tail.tail.tail.tail.tail, .copy target nix jq pid ht h⟩
  | drop ho => simp at ho

abbrev Pool := Interleave.Config Resp WorkflowJob World

abbrev Line := Entry Resp WorkflowJob World

/-- The daemon has started: nothing has been warmed yet, and every task is
at its start. What an earlier one left on the disk may be there. -/
structure Start (w : Conf.Warmer) (allowed : List String) (c : Pool) : Prop where
  trace : c.trace = []
  attempts : c.world.attempts = 0
  running : c.world.running = []
  fresh : ∀ t event p, c.threads t = some (event, p) →
    t < c.next ∧ p = maybeTrigger w allowed event >>= fun _ => pure none

variable {w : Conf.Warmer} {allowed : List String} {c₀ c : Pool}
variable {Meets : Shared Resp WorkflowJob World → Line → Prop}

theorem Start.monitor (h : Start w allowed c) : (monitor w allowed).Start (machine w allowed) c where
  trace := h.trace
  fresh t event p ht := ⟨(h.fresh t event p ht).1, (h.fresh t event p ht).2, rfl⟩

theorem once_machine : (machine w allowed).Once := fun _ =>
  (Prog.returns_true _).bind fun _ _ => rfl

/-- A task's lines are at one event. -/
theorem Start.same (h₀ : Start w allowed c₀) (hr : (machine w allowed).Run Meets c₀ c) :
    Machine.AtOne c :=
  once_machine.same h₀.trace h₀.fresh hr

/-- Where a warm is says what it has called. -/
theorem shows_at {t : Tid} {τ : List Line} {phase : Phase} {cand : WarmCandidate}
    (hs : (monitor w allowed).At t τ phase)
    (hc : ∀ e ∈ τ, e.tid = t → parseCandidate e.task allowed = some cand) :
    phase.Shows w cand (Entry.own t τ) := by
  induction τ generalizing phase with
  | nil =>
    obtain rfl : phase = .idle := hs
    trivial
  | cons e τ ih =>
    have hrest := fun e' he' => hc e' (List.mem_cons_of_mem e he')
    cases e with
    | ended u k x => exact ih hs hrest
    | did u k o r x =>
      by_cases hut : u = t
      · subst hut
        obtain ⟨before, hbefore, cand', hparse, hstep⟩ := Monitor.at_did.mp hs
        have hcand := hc _ List.mem_cons_self rfl
        obtain rfl : cand' = cand := Option.some.inj (hparse.symm.trans hcand)
        rw [Entry.own_did]
        exact shows_step (ih hbefore hrest) hstep
      · rw [Entry.own_did_of_ne hut]
        exact ih ((Monitor.at_did_of_ne hut).mp hs) hrest

/-- A call of a run, as a step of its warm. -/
theorem step_of_line (h₀ : Start w allowed c₀) (hr : (machine w allowed).Run Meets c₀ c) {t : Tid}
    {event : WorkflowJob} {o : Op} {r : Resp o} {x : World} {σ : List Line}
    (hsuf : .did t event o r x :: σ <:+ c.trace) :
    ∃ cand phase phase', parseCandidate event allowed = some cand ∧
      (monitor w allowed).At t σ phase ∧ phase.Shows w cand (Entry.own t σ) ∧
        Step w cand phase ⟨o, r⟩ phase' := by
  have hholds := sound_monitor.run h₀.monitor hr
  obtain ⟨phase, phase', hat, cand, hparse, hstep⟩ :=
    Monitor.next_of_line (hholds.accepted t) hsuf
  refine ⟨cand, phase, phase', hparse, hat, shows_at hat fun e he htid => ?_, hstep⟩
  have hsame := (h₀.same hr).same e (hsuf.subset (List.mem_cons_of_mem _ he)) _
    (hsuf.subset List.mem_cons_self) htid
  rw [hsame]
  exact hparse

/-- **Every child of every run is trusted**: it is started for a commit of
an allowed repository, in a directory laid out in full, and what it builds
or copies has been looked through and built before. -/
theorem trusted_of_spawn (h₀ : Start w allowed c₀) (hr : (machine w allowed).Run Meets c₀ c)
    {t : Tid} {event : WorkflowJob} {child : Child} {r : Except String Pid} {x : World}
    {σ : List Line} (hsuf : .did t event (.spawn child) r x :: σ <:+ c.trace) :
    ∃ cand s, Eligible allowed event cand ∧ Ordered (laidOut w cand s) (Entry.own t σ) ∧
      Trusted w cand s (Entry.own t σ) child := by
  obtain ⟨cand, phase, phase', hparse, -, hshows, hstep⟩ := step_of_line h₀ hr hsuf
  obtain ⟨s, hlaid, htrusted⟩ := trusted_of_step hshows hstep
  exact ⟨cand, s, eligible_of_parse hparse, hlaid, htrusted⟩

/-- A push to the default branch of `o/r`. -/
def sampleEvent : WorkflowJob where
  action := "queued"
  workflowJob :=
    ⟨42, 1, 1, some "main", some "0123456789abcdef0123456789abcdef01234567", "build", []⟩
  repository := ⟨7, "o/r"⟩

/-- Two warms at a time. -/
def sampleWarmer : Conf.Warmer := { Conf.sampleWarmer "https://cache.nixos.org" with permits := 2 }

/-- Two tasks for it, on an empty disk. -/
def samplePool : Pool where
  world := ⟨⟨fun _ => none, []⟩, 0, fun _ => none, [], []⟩
  next := 2
  trace := []
  threads t :=
    if t < 2 then some (sampleEvent, maybeTrigger sampleWarmer ["o/r"] sampleEvent >>= fun _ => pure none)
    else none

theorem start_samplePool : Start sampleWarmer ["o/r"] samplePool := by
  refine ⟨rfl, rfl, rfl, fun t event p ht => ?_⟩
  by_cases hlt : t < 2
  · have ht : some (sampleEvent, maybeTrigger sampleWarmer ["o/r"] sampleEvent >>= fun _ => pure none) =
        some (event, p) := (if_pos hlt).symm.trans ht
    cases ht
    exact ⟨hlt, rfl⟩
  · have ht : none = some (event, p) := (if_neg hlt).symm.trans ht
    cases ht

/-- Everything goes well: the tip is confirmed at `now`, and each child
ends with success. Children have their ids from `pid` on. -/
def goesWell (now : Warmer.Instant) (pid : Pid) : (o : Op) → Oracle o
  | .gate .tryAcquire => ()
  | .gate (.defaultBranch ..) => .ok "main"
  | .gate (.branchTip ..) => .ok "0123456789abcdef0123456789abcdef01234567"
  | .gate .now => now
  | .gate (.checkAndMark ..) => ()
  | .gate (.runWarm ..) => false
  | .gate (.clear ..) => ()
  | .contentsReadToken _ => .ok "ghs_token"
  | .nextAttempt => ()
  | .fs _ => none
  | .spawn child => .ok (if child.stdin.isSome then pid + 1 else pid)
  | .takeStdout _ => true
  | .wait _ => .exited ⟨true, "exit status: 0"⟩
  | .reap _ | .killGroup _ | .dropChild _ => ()

/-- The first two arguments of the child that has just been started. -/
def lastChild (c : Pool) : Option (List (List UInt8)) :=
  match c.trace with
  | .did _ _ (.spawn child) _ _ :: _ => some (child.args.take 1)
  | _ => none

theorem build_sample :
    ((machine sampleWarmer ["o/r"]).follow (fun _ _ => true)
      (.replicate 31 (.call 0 (goesWell 0 1))) samplePool).map lastChild =
        some (some [bytes "build"]) := by
  decide +kernel

/-- A build that is started. -/
theorem trusted_of_spawn_sample :
    ∃ c t event child r x σ, (machine sampleWarmer ["o/r"]).Run (fun _ _ => True) samplePool c ∧
      .did t event (.spawn child) r x :: σ <:+ c.trace ∧ child.args.take 1 = [bytes "build"] ∧
      ∃ cand s, Eligible ["o/r"] event cand ∧
        Ordered (laidOut sampleWarmer cand s) (Entry.own t σ) ∧
          Trusted sampleWarmer cand s (Entry.own t σ) child := by
  obtain ⟨c, hc, hlast⟩ := Option.map_eq_some_iff.mp build_sample
  have hr : (machine sampleWarmer ["o/r"]).Run (fun _ _ => True) samplePool c :=
    (Machine.run_of_follow hc).mono fun _ _ _ => trivial
  unfold lastChild at hlast
  split at hlast
  · rename_i t event child r x σ htrace
    have hsuf : .did t event (.spawn child) r x :: σ <:+ c.trace := htrace ▸ List.suffix_refl _
    exact ⟨c, t, event, child, r, x, σ, hr, hsuf, Option.some.inj hlast,
      trusted_of_spawn start_samplePool hr hsuf⟩
  · cases hlast

end Warm

end GhaConsumer

import GhaConsumer.Interleave.Carrier
import GhaConsumer.Interleave.Lasting
import GhaConsumer.Warmer.Coalescing
import GhaConsumer.Warmer.Isolation

/-!
# Warmer — the coalescer in the whole warmer

What is known of the coalescer is said of tasks for which `run_warm` is
one call. Here `run_warm` is the program it is: every run of the warmer is
a run of those tasks, each `run_warm` taken when it is over
(`refines_of_run`). So the coalescer does in the warmer what it is for: of
two warms of one tip that both come to start a child, the later marks the
tip at least a period after the earlier (`period_of_spawns`).
-/

namespace GhaConsumer

namespace Warm

open Interleave Text
open Warmer (WarmCandidate CoalesceKey Instant)

/-! ## `run_warm` is silent -/

/-- A call that is not one of `run_candidate`. -/
def Inner (o : Op) : Prop := ∀ o', o ≠ .gate o'

variable {w : Conf.Warmer} {allowed : List String}

theorem inner_withContext (context : String) (o : Fs) : (withContext context o).Only Inner :=
  .step (fun o' h => by cases h) fun r => by cases r <;> trivial

theorem inner_inTurn {ps : List (Program (Except String Unit))} (h : ∀ p ∈ ps, p.Only Inner) :
    (inTurn ps).Only Inner := by
  induction ps with
  | nil => trivial
  | cons p ps ih =>
    refine (h p List.mem_cons_self).bind fun r => ?_
    cases r with
    | error e => trivial
    | ok => exact ih fun q hq => h q (List.mem_cons_of_mem p hq)

theorem inner_two (c c' : String) (o o' : Fs) :
    (inTurn [withContext c o, withContext c' o']).Only Inner :=
  inner_inTurn (by simp [inner_withContext])

theorem inner_create (parent : OsPath) (slug token nixConf : String) :
    (WarmWorkdir.create parent slug token nixConf).Only Inner := by
  refine Prog.Only.bind (inner_two ..) fun r => ?_
  cases r with
  | error e => trivial
  | ok =>
    refine .step (fun o' h => by cases h) fun _ => Prog.Only.bind (inner_inTurn ?_) fun r => ?_
    · simp only [List.forall_mem_cons]
      exact ⟨inner_two .., inner_two .., inner_two .., inner_two .., inner_two .., by simp⟩
    · cases r with
      | error e => exact .step (fun o' h => by cases h) fun _ => trivial
      | ok => trivial

theorem inner_runStep (child : Child) (label : String) : (runStep w child label).Only Inner := by
  refine .step (fun o' h => by cases h) fun r => ?_
  cases r with
  | error e => trivial
  | ok pid =>
    refine Prog.Only.bind (.step (fun o' h => by cases h) fun r => ?_) fun _ =>
      .step (fun o' h => by cases h) fun _ => trivial
    cases r with
    | exited status => by_cases h : status.success = true <;> simp [h]
    | failed e => trivial
    | elapsed =>
      exact .step (fun o' h => by cases h) fun _ => .step (fun o' h => by cases h) fun _ => trivial

theorem inner_killAndDrop (pid : Pid) : (killAndDrop pid).Only Inner :=
  .step (fun o' h => by cases h) fun _ => ⟨fun o' h => (by cases h), fun _ => trivial⟩

theorem inner_waitBoth (nix jq : Pid) : (waitBoth nix jq).Only Inner := by
  have hnix : ∀ f : Waited → Program Bool, (∀ r, (f r).Only Inner) →
      (op (.wait nix) >>= f).Only Inner := fun f hf => .step (fun o' h => by cases h) hf
  have hdrop : ∀ (pid : Pid) (f : Unit → Program Bool), (∀ r, (f r).Only Inner) →
      (op (.dropChild pid) >>= f).Only Inner := fun pid f hf => .step (fun o' h => by cases h) hf
  refine .step (fun o' h => by cases h) fun r => ?_
  cases r with
  | elapsed =>
    exact (inner_killAndDrop jq).bind fun _ => (inner_killAndDrop nix).bind fun _ => trivial
  | exited status | failed e =>
    refine hnix _ fun r => ?_
    cases r with
    | elapsed => exact hdrop jq _ fun _ => (inner_killAndDrop nix).bind fun _ => trivial
    | exited status => exact hdrop jq _ fun _ => hdrop nix _ fun _ => trivial
    | failed e => exact hdrop jq _ fun _ => hdrop nix _ fun _ => trivial

theorem inner_closureIsHostBuildSafe (d : WarmWorkdir) (installable : String) :
    (closureIsHostBuildSafe w d installable).Only Inner := by
  refine .step (fun o' h => by cases h) fun r => ?_
  cases r with
  | error e => trivial
  | ok nix =>
    refine .step (fun o' h => by cases h) fun taken => ?_
    cases taken with
    | false => exact (inner_killAndDrop nix).bind fun _ => trivial
    | true =>
      refine .step (fun o' h => by cases h) fun r => ?_
      cases r with
      | error e => exact (inner_killAndDrop nix).bind fun _ => trivial
      | ok jq => exact inner_waitBoth nix jq

theorem inner_warmTarget (d : WarmWorkdir) (flakeref target : String) :
    (warmTarget w d flakeref target).Only Inner := by
  refine (inner_closureIsHostBuildSafe d _).bind fun safe => ?_
  cases safe with
  | false => trivial
  | true =>
    refine (inner_runStep _ _).bind fun r => ?_
    cases r with
    | error e => trivial
    | ok => exact (inner_runStep _ _).bind fun _ => trivial

theorem inner_warmEach (d : WarmWorkdir) (flakeref : String) (targets : List String) :
    (warmEach w d flakeref targets).Only Inner := by
  induction targets with
  | nil => trivial
  | cons target rest ih => exact (inner_warmTarget d flakeref target).bind fun _ => ih

/-- `run_warm` neither marks nor clears. -/
theorem inner_runWarm (cand : WarmCandidate) (branch : String) :
    (runWarm w cand branch).Only Inner := by
  refine .step (fun o' h => by cases h) fun r => ?_
  cases r with
  | error e => trivial
  | ok token =>
    refine .step (fun o' h => by cases h) fun attempt => (inner_create ..).bind fun r => ?_
    cases r with
    | error e => trivial
    | ok d =>
      refine (inner_runStep _ _).bind fun _ => (inner_warmEach d _ _).bind fun _ => ?_
      exact .step (fun o' h => by cases h) fun _ => trivial

/-! ## The warmer carries out the tasks -/

/-- The coalescer's machine, `run_warm` being one call. -/
abbrev Coalescing (w : Conf.Warmer) : Machine Warmer.Resp WarmCandidate Warmer.World :=
  Warmer.machine (coalesceTtl w) w.permits

/-- A call of `run_candidate`, as such. -/
def gateEvent : Event Resp → Option (Event Warmer.Resp)
  | ⟨.gate o, r⟩ => some ⟨o, r⟩
  | _ => none

def isRunWarm : Warmer.Op → Bool
  | .runWarm .. => true
  | _ => false

def carrier (w : Conf.Warmer) (allowed : List String) :
    Carrier Resp WorkflowJob World Warmer.Resp WarmCandidate Warmer.World where
  impl := impl w
  view x := x.gate
  task event := parseCandidate event allowed
  code cand := Warmer.runCandidate cand
  shown := gateEvent
  silent := isRunWarm

/-- Inner calls leave marks and permits. -/
theorem quiet_of_inner {o : Op} (ho : Inner o) : (carrier w allowed).Quiet (machine w allowed) o := by
  constructor
  · intro r
    cases o with
    | gate o => exact absurd rfl (ho o)
    | _ => rfl
  · intro t q x r x' h
    have h : step w t o q x = some (r, x') := h
    show x'.gate = x.gate
    cases o with
    | gate o => exact absurd rfl (ho o)
    | spawn child =>
      cases q with
      | error e =>
        cases h
        rfl
      | ok pid =>
        simp only [step] at h
        split at h
        · cases h
        · cases h
          rfl
    | wait pid => cases q <;> cases h <;> rfl
    | _ =>
      cases h
      rfl

/-- Whoever has no permit has nothing to give back. -/
theorem leave_eq_iff {t : Tid} {x : Warmer.World} :
    Warmer.leave t x = x ↔ x.permits.erase t = x.permits := by
  constructor
  · intro h
    exact congrArg Warmer.World.permits h
  · intro h
    unfold Warmer.leave
    rw [h]

theorem sound_carrier : (carrier w allowed).Sound (Coalescing w) (machine w allowed) where
  atomic o ho := by
    have himpl : impl w o = .call (.gate o) fun r => .ret r := by
      cases o with
      | runWarm cand branch => cases ho
      | _ => rfl
    refine ⟨.gate o, id, himpl, fun r => rfl, fun {t q x r x'} h => ⟨q, ?_⟩⟩
    obtain ⟨⟨r', g⟩, hg, heq⟩ := Option.map_eq_some_iff.mp h
    cases heq
    exact hg
  -- none of the calls inside a `run_warm` is heard, so there it may return anything
  silent o ho := by
    cases o with
    | runWarm cand branch =>
      exact ⟨fun t r x => ⟨r, rfl⟩, (inner_runWarm cand branch).mono fun o => quiet_of_inner⟩
    | _ => cases ho
  body {event cand} h := by
    have h : parseCandidate event allowed = some cand := h
    refine ⟨rfl, ?_⟩
    show (maybeTrigger w allowed event >>= fun _ => pure none) = _
    unfold maybeTrigger
    rw [h]
    rfl
  idle {event} h := by
    have h : parseCandidate event allowed = none := h
    show (maybeTrigger w allowed event >>= fun _ => pure none) = _
    unfold maybeTrigger
    rw [h]
    rfl
  forks := rfl
  forks' := rfl
  env {e x x'} h := by
    have h : Scribble.apply e x = some x' := h
    unfold Scribble.apply at h
    split at h
    · cases h
      rfl
    · cases h
  leave t x := rfl
  crash t x := rfl
  -- an acquire of one task gives no other a permit
  stranger {t u o q r x x'} htu h hleave := by
    have hleave : Warmer.leave t x = x := hleave
    show Warmer.leave t x' = x'
    rw [leave_eq_iff] at hleave ⊢
    have h : Warmer.step (coalesceTtl w) w.permits u o q x = some (r, x') := h
    cases o with
    | tryAcquire =>
      simp only [Warmer.step] at h
      split at h
      · cases h
        show (u :: x.permits).erase t = u :: x.permits
        rw [List.erase_cons_tail (by simpa using Ne.symm htu), hleave]
      · cases h
        exact hleave
    | _ =>
      cases h
      exact hleave
  stranger_leave {t u x} htu h := by
    have h : Warmer.leave t x = x := h
    show Warmer.leave t (Warmer.leave u x) = Warmer.leave u x
    rw [leave_eq_iff] at h ⊢
    show (x.permits.erase u).erase t = x.permits.erase u
    rw [List.erase_comm, h]

/-! ## Every run -/

variable {c₀ c : Pool} {Meets : Shared Resp WorkflowJob World → Line → Prop}
variable {Meets' : Shared Warmer.Resp WarmCandidate Warmer.World → Warmer.Line → Prop}
variable {t t' : Tid}

/-- The pool of the tasks, as the daemon starts. -/
def tasks (w : Conf.Warmer) (allowed : List String) (c : Pool) : Warmer.Pool :=
  (carrier w allowed).start (Coalescing w) c

/-- Nobody is warming yet, and nothing is marked. -/
structure Fresh (w : Conf.Warmer) (allowed : List String) (c : Pool) : Prop
    extends Start w allowed c where
  gate : c.world.gate = ⟨fun _ => none, []⟩

theorem Fresh.tasks (h : Fresh w allowed c) : Warmer.Start (tasks w allowed c) where
  trace := rfl
  seen := congrArg Warmer.World.seen h.gate
  fresh t cand p ht := by
    obtain ⟨⟨event, q⟩, hq, ht⟩ := Option.bind_eq_some_iff.mp ht
    obtain ⟨cand', -, heq⟩ := Option.map_eq_some_iff.mp ht
    cases heq
    exact ⟨(h.fresh t event q hq).1, rfl⟩

theorem related_of_run (h₀ : Fresh w allowed c₀)
    (hasks : (carrier w allowed).Asks Meets Meets') (hr : (machine w allowed).Run Meets c₀ c) :
    ∃ a, (Coalescing w).Run Meets' (tasks w allowed c₀) a ∧
      (carrier w allowed).Related (Coalescing w) (machine w allowed) c a := by
  refine sound_carrier.run hasks (sound_carrier.start h₀.trace (fun t k p ht => ?_) fun t => ?_) hr
  · exact (h₀.fresh t k p ht).2
  · rw [leave_eq_iff]
    show c₀.world.gate.permits.erase t = c₀.world.gate.permits
    rw [h₀.gate]
    rfl

/-- **Every run of the warmer is a run of the coalescer's tasks**, with the
same marks and permits, and the same calls but for `run_warm`. -/
theorem refines_of_run (h₀ : Fresh w allowed c₀) (hr : (machine w allowed).Run Meets c₀ c) :
    ∃ a, (Coalescing w).Run (fun _ _ => True) (tasks w allowed c₀) a ∧ a.world = c.world.gate ∧
      a.trace.filter (carrier w allowed).heard = c.trace.filterMap (carrier w allowed).line := by
  obtain ⟨a, ha, hrelated⟩ := related_of_run h₀
    ⟨fun _ _ _ => trivial, fun _ _ _ _ _ _ _ _ => trivial⟩ hr
  exact ⟨a, ha, hrelated.world, hrelated.trace⟩

/-! ## One build per tip and period -/

/-- The clock reading of a `check_and_mark`. -/
def reading : Line → Option Instant
  | .did _ _ (.gate (.checkAndMark _ now)) _ _ => some now
  | _ => none

/-- **The assumption**: the tasks take the coalescer's lock in the order of
their clock readings. -/
def InOrder (s : Shared Resp WorkflowJob World) (x : Line) : Prop :=
  ∀ now ∈ reading x, ∀ e ∈ s.trace, ∀ i ∈ reading e, i ≤ now

instance (s : Shared Resp WorkflowJob World) (x : Line) : Decidable (InOrder s x) :=
  inferInstanceAs (Decidable (∀ now ∈ reading x, ∀ e ∈ s.trace, ∀ i ∈ reading e, i ≤ now))

theorem reading_of_line {x : Line} {y : Warmer.Line} (h : (carrier w allowed).line x = some y) :
    Warmer.reading y = reading x := by
  cases x with
  | ended t k x =>
    obtain ⟨l, -, heq⟩ := Option.map_eq_some_iff.mp h
    cases heq
    rfl
  | did t k o r x =>
    obtain ⟨l, -, hline⟩ := Option.bind_eq_some_iff.mp h
    obtain ⟨e, hshown, heq⟩ := Option.map_eq_some_iff.mp hline
    cases heq
    cases o with
    | gate o =>
      cases hshown
      cases o <;> rfl
    | _ => cases hshown

/-- So do the tasks of the coalescer. -/
theorem asks_inOrder : (carrier w allowed).Asks InOrder Warmer.InOrder where
  silent s x hx := by
    intro now hnow
    cases x with
    | ended => cases hnow
    | did t k o r x =>
      cases o with
      | runWarm => cases hnow
      | _ => cases hx
  heard s x s' x' _ htrace hm hline := by
    intro now hnow e he i hi
    rw [reading_of_line hline] at hnow
    have hheard : (carrier w allowed).heard e = true := by
      cases e with
      | ended => rfl
      | did t k o r x =>
        cases o with
        | runWarm => cases hi
        | _ => rfl
    have hmem := List.mem_filter.mpr ⟨he, hheard⟩
    rw [htrace] at hmem
    obtain ⟨y, hy, hyline⟩ := List.mem_filterMap.mp hmem
    rw [reading_of_line hyline] at hi
    exact hm now hnow y hy i hi

section Period

variable {ttl : Warmer.Duration} {capacity : ℕ} {a₀ a : Warmer.Pool} {key : CoalesceKey} {i i' : Instant}

/-- A mark is a period after one that its owner has not cleared. -/
theorem period_of_later (httl : 0 < ttl) (h₀ : Warmer.Start a₀)
    (hr : (Warmer.machine ttl capacity).Run Warmer.InOrder a₀ a) {k : WarmCandidate}
    {x : Warmer.World} {σ : List Warmer.Line}
    (hsuf : .did t k (.checkAndMark key i) true x :: σ <:+ a.trace)
    (hmark : ⟨.checkAndMark key i', true⟩ ∈ Entry.own t' σ)
    (hun : Warmer.Uncleared (Entry.own t' σ)) : i' + ttl ≤ i := by
  obtain ⟨a₁, a₂, hr₁, -, rfl, -, -⟩ := hr.since h₀.trace hsuf
  have hmarks := (Warmer.holds_of_run httl h₀ hr₁).marks key
  obtain ⟨m, hlast, rfl | hlate⟩ := hmarks.pending t' i' hmark hun
  · -- the other mark is the latest, and stands
    have hchain := (Warmer.holds_of_run httl h₀ hr).apart key _ hsuf
    rw [Warmer.standing, Warmer.marks, if_pos ⟨rfl, rfl⟩] at hchain
    cases hstanding : Warmer.standing key a₁.trace with
    | nil => exact absurd hun (hmarks.gone _ hlast hstanding)
    | cons m' rest =>
      have hhead := Warmer.lastMark_of_standing (congrArg List.head? hstanding)
      obtain rfl : m' = (t', i') := Option.some.inj (hhead.symm.trans hlast)
      rw [hstanding] at hchain
      exact (List.pairwise_cons.mp hchain).1 _ List.mem_cons_self
  · -- it is older still than the latest
    obtain ⟨e, he, now, hreading, hle⟩ := Warmer.reached_of_lastMark hlast
    obtain ⟨s, hs, hin⟩ := hr.met h₀.trace hsuf
    have hnow := hin i rfl e (hs ▸ he) now hreading
    exact Nat.le_trans hlate (Nat.le_trans hle hnow)

/-- Marks that their owners have not cleared are a period apart. -/
theorem period_of_uncleared (httl : 0 < ttl) (h₀ : Warmer.Start a₀)
    (hr : (Warmer.machine ttl capacity).Run Warmer.InOrder a₀ a) (hne : t ≠ t')
    (hmark : ⟨.checkAndMark key i, true⟩ ∈ Entry.own t a.trace)
    (hmark' : ⟨.checkAndMark key i', true⟩ ∈ Entry.own t' a.trace)
    (hun : Warmer.Uncleared (Entry.own t a.trace)) (hun' : Warmer.Uncleared (Entry.own t' a.trace)) :
    i + ttl ≤ i' ∨ i' + ttl ≤ i := by
  have hearlier : ∀ {u : Tid} {σ : List Warmer.Line}, σ <:+ a.trace →
      Warmer.Uncleared (Entry.own u a.trace) → Warmer.Uncleared (Entry.own u σ) := by
    intro u σ hsuf hall key marked hmem
    exact hall key marked ((Entry.own_suffix hsuf).subset hmem)
  obtain ⟨k, x, σ, hsuf⟩ := Entry.exists_of_own hmark
  obtain ⟨k', x', σ', hsuf'⟩ := Entry.exists_of_own hmark'
  rcases List.suffix_or_suffix_of_suffix hsuf hsuf' with hin | hin
  · rcases List.suffix_cons_iff.mp hin with heq | hin
    · cases heq
      exact absurd rfl hne
    · exact .inl (period_of_later httl h₀ hr hsuf' (Entry.mem_own (hin.subset List.mem_cons_self))
        (hearlier ((List.suffix_cons _ _).trans hsuf') hun))
  · rcases List.suffix_cons_iff.mp hin with heq | hin
    · cases heq
      exact absurd rfl hne
    · exact .inr (period_of_later httl h₀ hr hsuf (Entry.mem_own (hin.subset List.mem_cons_self))
        (hearlier ((List.suffix_cons _ _).trans hsuf) hun'))

end Period

section Warms

variable {cand cand' : WarmCandidate} {phase phase' : Phase} {e : Event Resp}

/-- The directory has been laid out, and the warm is in it or over. -/
def Phase.Built : Phase → Prop
  | .inside .. | .over => True
  | _ => False

/-- A child is started inside. -/
def Starts (e : Event Resp) : Prop := ∃ child r, e = ⟨.spawn child, r⟩

/-- A mark is taken away. -/
def Clears (e : Event Resp) : Prop := ∃ key i r, e = ⟨.gate (.clear key i), r⟩

theorem built_step (h : phase.Built) (hs : Step w cand phase e phase') :
    phase'.Built ∧ ¬ Clears e := by
  cases hs with
  | @drop s stage pid pids o r ho =>
    refine ⟨trivial, ?_⟩
    rintro ⟨key, i, r', heq⟩
    cases heq
    simp at ho
  | seed | look | take | untaken | filter | pass | check | build | built | copy | ended | unwaited
  | leave =>
    refine ⟨trivial, ?_⟩
    rintro ⟨key, i, r', heq⟩
    cases heq
  | _ => exact h.elim

theorem built_of_starts (hs : Step w cand phase e phase') (he : Starts e) :
    phase.Built ∧ phase ≠ .over := by
  obtain ⟨child, r, rfl⟩ := he
  obtain ⟨s, stage, pids, stage', rfl, -⟩ := spawn_step hs
  exact ⟨trivial, fun h => by cases h⟩

theorem over_of_clears (hs : Step w cand phase e phase') (he : Clears e) : phase' = .over := by
  obtain ⟨key, i, r, rfl⟩ := he
  cases hs with
  | clear => rfl
  | drop ho => simp at ho

theorem not_step_over (hs : Step w cand .over e phase') : False := by
  cases hs

/-- A warm that has started a child does not take its mark away. -/
theorem uncleared_of_starts {τ : List Line} (hat : (monitor w allowed).At t τ phase)
    (hstarts : ∃ e ∈ Entry.own t τ, Starts e) : ∀ e ∈ Entry.own t τ, ¬ Clears e := by
  have hall := hat.induction
    (I := fun ρ phase => ((∃ e ∈ ρ, Starts e) → phase.Built ∧ ∀ e ∈ ρ, ¬ Clears e) ∧
      ((∃ e ∈ ρ, Clears e) → phase = .over)) ?_ ?_
  · exact (hall.1 hstarts).2
  · exact ⟨fun ⟨e, he, _⟩ => (by cases he), fun ⟨e, he, _⟩ => (by cases he)⟩
  · rintro event ρ phase e phase' ⟨hbuilt, hover⟩ ⟨cand, -, hstep⟩
    refine ⟨?_, ?_⟩
    · rintro ⟨e', he', hstart⟩
      have hbefore : phase.Built ∧ ∀ e ∈ ρ, ¬ Clears e := by
        rcases List.mem_cons.mp he' with rfl | he'
        · obtain ⟨hin, hne⟩ := built_of_starts hstep hstart
          exact ⟨hin, fun e he hclear => hne (hover ⟨e, he, hclear⟩)⟩
        · exact hbuilt ⟨e', he', hstart⟩
      obtain ⟨hin, hnot⟩ := built_step hbefore.1 hstep
      exact ⟨hin, List.forall_mem_cons.mpr ⟨hnot, hbefore.2⟩⟩
    · rintro ⟨e', he', hclear⟩
      rcases List.mem_cons.mp he' with rfl | he'
      · exact over_of_clears hstep hclear
      · obtain rfl := hover ⟨e', he', hclear⟩
        exact (not_step_over hstep).elim

/-- A warm that has started a child has marked its tip, and leaves the mark. -/
theorem marked_of_spawn (h₀ : Start w allowed c₀) (hr : (machine w allowed).Run Meets c₀ c)
    {event : WorkflowJob} {child : Child} {r : Except String Pid} {x : World} {σ : List Line}
    (hsuf : .did t event (.spawn child) r x :: σ <:+ c.trace)
    (hc : parseCandidate event allowed = some cand) :
    (∃ m, ⟨.gate (.checkAndMark cand.coalesceKey m), true⟩ ∈ Entry.own t c.trace) ∧
      ∀ e ∈ Entry.own t c.trace, ¬ Clears e := by
  constructor
  · obtain ⟨cand', phase, phase', hparse, -, hshows, hstep⟩ := step_of_line h₀ hr hsuf
    obtain rfl : cand' = cand := Option.some.inj (hparse.symm.trans hc)
    obtain ⟨s, hlaid, -⟩ := trusted_of_step hshows hstep
    obtain ⟨e, he, rfl⟩ := (Ordered.right hlaid).tail.tail.tail.mem
    exact ⟨s.marked, (Entry.own_suffix ((List.suffix_cons _ σ).trans hsuf)).subset he⟩
  · obtain ⟨phase, hat⟩ := (sound_monitor.run h₀.monitor hr).accepted t
    exact uncleared_of_starts hat
      ⟨_, Entry.mem_own (hsuf.subset List.mem_cons_self), child, r, rfl⟩

/-- **One build per tip and period**: of two warms of one tip that both
start a child, each marks the tip and leaves its mark, and one marks it a
period after the other. -/
theorem period_of_spawns (h₀ : Fresh w allowed c₀) (hr : (machine w allowed).Run InOrder c₀ c)
    (hne : t ≠ t') {event event' : WorkflowJob} {child child' : Child}
    {r r' : Except String Pid} {x x' : World}
    (hspawn : .did t event (.spawn child) r x ∈ c.trace)
    (hspawn' : .did t' event' (.spawn child') r' x' ∈ c.trace)
    (hc : parseCandidate event allowed = some cand)
    (hc' : parseCandidate event' allowed = some cand')
    (hkey : cand.coalesceKey = cand'.coalesceKey) :
    ∃ m m', ⟨.gate (.checkAndMark cand.coalesceKey m), true⟩ ∈ Entry.own t c.trace ∧
      ⟨.gate (.checkAndMark cand.coalesceKey m'), true⟩ ∈ Entry.own t' c.trace ∧
        (∀ e ∈ Entry.own t c.trace, ¬ Clears e) ∧ (∀ e ∈ Entry.own t' c.trace, ¬ Clears e) ∧
          (m + coalesceTtl w ≤ m' ∨ m' + coalesceTtl w ≤ m) := by
  obtain ⟨a, ha, hrelated⟩ := related_of_run h₀ asks_inOrder hr
  -- each warm's mark is heard, so that the abstract run has it too, and no clear of it
  have hwarm : ∀ {u : Tid} {k : WorkflowJob} {d : Child} {q : Except String Pid} {y : World}
      {cand : WarmCandidate}, .did u k (.spawn d) q y ∈ c.trace →
      parseCandidate k allowed = some cand →
      ∃ m, ⟨.gate (.checkAndMark cand.coalesceKey m), true⟩ ∈ Entry.own u c.trace ∧
        (∀ e ∈ Entry.own u c.trace, ¬ Clears e) ∧
          ⟨.checkAndMark cand.coalesceKey m, true⟩ ∈ Entry.own u a.trace ∧
            Warmer.Uncleared (Entry.own u a.trace) := by
    intro u k d q y cand hmem hparse
    obtain ⟨σ', σ, htrace⟩ := List.append_of_mem hmem
    obtain ⟨⟨m, hm⟩, hun⟩ := marked_of_spawn h₀.toStart hr ⟨σ', htrace.symm⟩ hparse
    refine ⟨m, hm, hun, (hrelated.heard_iff rfl).mpr ?_, fun key i hclear => ?_⟩
    · obtain ⟨l, z, ρ, hsuf⟩ := Entry.exists_of_own hm
      have hl : l = k := (h₀.same hr).same _ (hsuf.subset List.mem_cons_self) _ hmem rfl
      exact ⟨l, cand, _, _, z, hsuf.subset List.mem_cons_self, hl ▸ hparse, rfl⟩
    · obtain ⟨l, l', o, q, z, hline, -, hshown⟩ := (hrelated.heard_iff rfl).mp hclear
      cases o with
      | gate o =>
        cases hshown
        exact hun _ (Entry.mem_own hline) ⟨key, i, (), rfl⟩
      | _ => cases hshown
  obtain ⟨m, hm, hkept, hmark, hun⟩ := hwarm hspawn hc
  obtain ⟨m', hm', hkept', hmark', hun'⟩ := hwarm hspawn' hc'
  rw [← hkey] at hm' hmark'
  refine ⟨m, m', hm, hm', hkept, hkept', ?_⟩
  rcases Nat.eq_zero_or_pos (coalesceTtl w) with hzero | hpos
  · rw [hzero]
    exact Nat.le_total m m'
  · exact period_of_uncleared hpos h₀.tasks ha hne hmark hmark' hun hun'

/-- Who has started a child, and for which event. -/
def starters (c : Pool) : List (Tid × WorkflowJob) :=
  c.trace.filterMap fun
    | .did t event (.spawn _) _ _ => some (t, event)
    | _ => none

theorem mem_trace_of_starters {event : WorkflowJob} (h : (t, event) ∈ starters c) :
    ∃ child r x, .did t event (.spawn child) r x ∈ c.trace := by
  obtain ⟨e, he, ht⟩ := List.mem_filterMap.mp h
  split at ht
  · cases ht
    exact ⟨_, _, _, he⟩
  · cases ht

end Warms

theorem fresh_samplePool : Fresh sampleWarmer ["o/r"] samplePool where
  toStart := start_samplePool
  gate := rfl

/-- A run in which two warms of one tip overlap. -/
theorem twoWarms_inOrder :
    ((machine sampleWarmer ["o/r"]).follow (fun s x => decide (InOrder s x)) twoWarms
      samplePool).map (fun c =>
        decide ((0, sampleEvent) ∈ starters c ∧ (1, sampleEvent) ∈ starters c)) = some true := by
  decide +kernel

theorem refines_of_run_sample :
    ∃ c a, (machine sampleWarmer ["o/r"]).Run InOrder samplePool c ∧
      (1, sampleEvent) ∈ starters c ∧
      (Coalescing sampleWarmer).Run (fun _ _ => True) (tasks sampleWarmer ["o/r"] samplePool) a ∧
      a.world = c.world.gate ∧
      a.trace.filter (carrier sampleWarmer ["o/r"]).heard =
        c.trace.filterMap (carrier sampleWarmer ["o/r"]).line := by
  obtain ⟨c, hc, htest⟩ := Option.map_eq_some_iff.mp twoWarms_inOrder
  have hr : (machine sampleWarmer ["o/r"]).Run InOrder samplePool c :=
    (Machine.run_of_follow hc).mono fun _ _ h => of_decide_eq_true h
  obtain ⟨a, ha⟩ := refines_of_run fresh_samplePool hr
  exact ⟨c, a, hr, (of_decide_eq_true htest).2, ha⟩

/-- The two warms have marked the tip a period apart. -/
theorem period_of_spawns_sample :
    ∃ c cand m m', (machine sampleWarmer ["o/r"]).Run InOrder samplePool c ∧
      ⟨.gate (.checkAndMark cand m), true⟩ ∈ Entry.own 0 c.trace ∧
      ⟨.gate (.checkAndMark cand m'), true⟩ ∈ Entry.own 1 c.trace ∧
      (∀ e ∈ Entry.own 0 c.trace, ¬ Clears e) ∧ (∀ e ∈ Entry.own 1 c.trace, ¬ Clears e) ∧
      (m + coalesceTtl sampleWarmer ≤ m' ∨ m' + coalesceTtl sampleWarmer ≤ m) := by
  obtain ⟨c, hc, htest⟩ := Option.map_eq_some_iff.mp twoWarms_inOrder
  have hr : (machine sampleWarmer ["o/r"]).Run InOrder samplePool c :=
    (Machine.run_of_follow hc).mono fun _ _ h => of_decide_eq_true h
  obtain ⟨hfirst, hsecond⟩ := of_decide_eq_true htest
  obtain ⟨child, r, x, hspawn⟩ := mem_trace_of_starters hfirst
  obtain ⟨child', r', x', hspawn'⟩ := mem_trace_of_starters hsecond
  obtain ⟨cand, hparse⟩ : ∃ cand, parseCandidate sampleEvent ["o/r"] = some cand := by
    rw [← Option.isSome_iff_exists]
    decide
  obtain ⟨m, m', hm, hm', hkept, hkept', hapart⟩ :=
    period_of_spawns fresh_samplePool hr Nat.zero_ne_one hspawn hspawn' hparse hparse rfl
  exact ⟨c, cand.coalesceKey, m, m', hr, hm, hm', hkept, hkept', hapart⟩

end Warm

end GhaConsumer

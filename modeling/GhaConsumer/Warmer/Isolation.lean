import GhaConsumer.Warmer.Scratch

/-!
# Warmer — warms that do not meet

A warm has a token in its directory and untrusted children at work there.
What is in the directory is changed by no other warm (`isolated_of_step`).
As long as the children keep to their own directories, and off the
configuration there (`World.ChildrenInside`), the configuration a child
starts with is the one written for it, and when the warm is over its
directory is gone, unless the removal at its end has failed
(`confined_of_run`).
-/

namespace GhaConsumer

namespace Warm

open Interleave Text
open Warmer (WarmCandidate)
open Conf (warmSlug)

variable {w : Conf.Warmer} {allowed : List String} {c₀ c c' : Pool}
variable {Meets : Shared Resp WorkflowJob World → Line → Prop}
variable {t u : Tid} {cand : WarmCandidate} {phase phase' : Phase} {s : Trip} {τ : List Line}
variable {root root' p : OsPath}

/-! ## Where a thread stands -/

/-- The thread's warm is of the candidate, and its calls may have led
here. -/
structure Stands (w : Conf.Warmer) (allowed : List String) (t : Tid) (τ : List Line)
    (cand : WarmCandidate) (phase : Phase) : Prop where
  reached : (monitor w allowed).At t τ phase
  about : ∀ e ∈ τ, e.tid = t → parseCandidate e.task allowed = some cand

/-- A call has led from where the thread stood. -/
theorem Stands.did {event : WorkflowJob} {o : Op} {r : Resp o} {x : World}
    (h : Stands w allowed t (.did t event o r x :: τ) cand phase') :
    ∃ phase, Stands w allowed t τ cand phase ∧ Step w cand phase ⟨o, r⟩ phase' := by
  obtain ⟨phase, hat, cand', hparse, hstep⟩ := Monitor.at_did.mp h.reached
  have hcand := h.about _ List.mem_cons_self rfl
  obtain rfl : cand' = cand := Option.some.inj (hparse.symm.trans hcand)
  exact ⟨phase, ⟨hat, fun e he => h.about e (List.mem_cons_of_mem _ he)⟩, hstep⟩

/-- Calls of others do not matter, nor does an end. -/
theorem Stands.tail {event : WorkflowJob} {o : Op} {r : Resp o} {x : World} (hut : u ≠ t)
    (h : Stands w allowed t (.did u event o r x :: τ) cand phase) :
    Stands w allowed t τ cand phase :=
  ⟨(Monitor.at_did_of_ne hut).mp h.reached, fun e he => h.about e (List.mem_cons_of_mem _ he)⟩

theorem Stands.ended {event : WorkflowJob} {x : World}
    (h : Stands w allowed t (.ended u event x :: τ) cand phase) :
    Stands w allowed t τ cand phase :=
  ⟨h.reached, fun e he => h.about e (List.mem_cons_of_mem _ he)⟩

/-- A thread that has named a directory owns it. -/
theorem Stands.owns (h : Stands w allowed t τ cand phase) (hs : phase.trip = some s) :
    Owns w allowed t (scratch w cand s.attempt).root τ := by
  have hshows := shows_at h.reached h.about
  have hdraw : Ordered (drawing cand s) (Entry.own t τ) := by
    cases phase with
    | named s' =>
      cases hs
      exact hshows
    | spoiled s' =>
      cases hs
      exact (show Ordered (spoiling w cand s) _ from hshows).tail.tail
    | laying s' done todo =>
      cases hs
      exact (Ordered.right hshows).tail
    | inside s' stage pids =>
      cases hs
      have hlaid := (show stage.Shows w cand s (Entry.own t τ) from hshows).laidOut
      exact (Ordered.right hlaid).tail
    | _ => cases hs
  obtain ⟨e, he, rfl⟩ := hdraw.mem
  obtain ⟨event, x, σ, hsuf⟩ := Entry.exists_of_own he
  exact ⟨event, cand, s.attempt, x, σ, hsuf, h.about _ (hsuf.subset List.mem_cons_self) rfl, rfl⟩

/-- A thread that has called stands somewhere. -/
theorem stands_of_line (h₀ : Start w allowed c₀) (hr : (machine w allowed).Run Meets c₀ c)
    {event : WorkflowJob} {o : Op} {r : Resp o} {x : World} {σ : List Line}
    (hsuf : .did t event o r x :: σ <:+ c.trace) :
    ∃ cand, parseCandidate event allowed = some cand ∧
      (∀ e ∈ c.trace, e.tid = t → parseCandidate e.task allowed = some cand) ∧
      ∃ phase, Stands w allowed t c.trace cand phase := by
  obtain ⟨cand, -, -, hparse, -⟩ := step_of_line h₀ hr hsuf
  have habout : ∀ e ∈ c.trace, e.tid = t → parseCandidate e.task allowed = some cand := by
    intro e he htid
    rw [(h₀.same hr).same e he _ (hsuf.subset List.mem_cons_self) htid]
    exact hparse
  obtain ⟨phase, hat⟩ := (sound_monitor.run h₀.monitor hr).accepted t
  exact ⟨cand, hparse, habout, phase, hat, habout⟩

/-- A thread that ends has left its directory. -/
theorem left_of_exit (h₀ : Start w allowed c₀) (hr : (machine w allowed).Run Meets c₀ c)
    {event : WorkflowJob} (hat : c.threads t = some (event, .ret none))
    (howns : Owns w allowed t root c.trace) :
    ∃ cand phase, Stands w allowed t c.trace cand phase ∧ ¬ phase.Occupies w cand root := by
  obtain ⟨event', cand, a, x, σ, hsuf, -⟩ := howns
  obtain ⟨cand, -, habout, -⟩ := stands_of_line h₀ hr hsuf
  obtain ⟨-, phase, hphase, hfin⟩ := (sound_monitor.run h₀.monitor hr).thread t event _ hat
  refine ⟨cand, phase, ⟨hphase, habout⟩, ?_⟩
  have hfin : phase = .idle ∨ phase = .over := hfin
  rcases hfin with rfl | rfl <;> exact id

/-! ## What a step changes -/

/-- Calls that are not the file system's leave the disk. -/
theorem disk_step {o : Op} {q : Oracle o} {r : Resp o} {x x' : World}
    (h : step w t o q x = some (r, x')) :
    (∃ f q', (⟨o, r⟩ : Event Resp) = ⟨.fs f, (Disk.step x.disk f q').1⟩ ∧
        x'.disk = (Disk.step x.disk f q').2) ∨
      ((∀ f r', (⟨o, r⟩ : Event Resp) ≠ ⟨.fs f, r'⟩) ∧ x'.disk = x.disk) := by
  cases o with
  | fs f =>
    cases h
    exact .inl ⟨f, q, rfl, rfl⟩
  | gate o =>
    obtain ⟨⟨r', g⟩, -, heq⟩ := Option.map_eq_some_iff.mp h
    cases heq
    exact .inr ⟨fun f r' heq => (by cases heq), rfl⟩
  | spawn child =>
    refine .inr ⟨fun f r' heq => (by cases heq), ?_⟩
    cases q with
    | error e =>
      cases h
      rfl
    | ok pid =>
      simp only [step] at h
      split at h
      · cases h
      · cases h
        rfl
  | wait pid =>
    refine .inr ⟨fun f r' heq => (by cases heq), ?_⟩
    cases q <;> cases h <;> rfl
  | _ =>
    cases h
    exact .inr ⟨fun f r' heq => (by cases heq), rfl⟩

/-- A child that is running was, and is not gone, or has been started. -/
theorem running_step {o : Op} {q : Oracle o} {r : Resp o} {x x' : World}
    (h : step w t o q x = some (r, x')) {y : Running} (hy : y ∈ x'.running) :
    (y ∈ x.running ∧ (y.tid = t → ¬ Gone y.pid ⟨o, r⟩)) ∨
      (y.tid = t ∧ (⟨o, r⟩ : Event Resp) = ⟨.spawn y.child, .ok y.pid⟩) := by
  -- only a call of its own task ends a child
  have hdrop : ∀ {pid : Pid}, y ∈ (x.drop t pid).running → y ∈ x.running ∧ (y.tid = t → y.pid ≠ pid) := by
    intro pid hmem
    obtain ⟨hmem, hne⟩ := List.mem_filter.mp hmem
    exact ⟨hmem, fun htid hpid => by simp [htid, hpid] at hne⟩
  cases o with
  | gate o =>
    obtain ⟨⟨r', g⟩, -, heq⟩ := Option.map_eq_some_iff.mp h
    cases heq
    exact .inl ⟨hy, fun _ => by simp [Gone]⟩
  | spawn child =>
    cases q with
    | error e =>
      cases h
      exact .inl ⟨hy, fun _ => by simp [Gone]⟩
    | ok pid =>
      simp only [step] at h
      split at h
      · cases h
      · cases h
        rcases List.mem_cons.mp hy with rfl | hy
        · exact .inr ⟨rfl, rfl⟩
        · exact .inl ⟨hy, fun _ => by simp [Gone]⟩
  | wait pid =>
    cases q with
    | exited status =>
      cases h
      obtain ⟨hmem, hne⟩ := hdrop hy
      exact .inl ⟨hmem, fun htid => by simpa [Gone] using (hne htid).symm⟩
    | failed | elapsed =>
      cases h
      exact .inl ⟨hy, fun _ => by simp [Gone]⟩
  | reap pid | killGroup pid | dropChild pid =>
    cases h
    obtain ⟨hmem, hne⟩ := hdrop hy
    exact .inl ⟨hmem, fun htid => by simpa [Gone] using (hne htid).symm⟩
  | _ =>
    cases h
    exact .inl ⟨hy, fun _ => by simp [Gone]⟩

/-- A task changes what is in its directory; what else it makes is above. -/
theorem changed_of_call (h₀ : Start w allowed c₀) (hr : (machine w allowed).Run Meets c₀ c')
    {event : WorkflowJob} {o : Op} {q : Oracle o} {r : Resp o} {x x' : World}
    (htrace : c'.trace = .did t event o r x :: τ) (hq : step w t o q x = some (r, x'))
    (hne : x'.disk p ≠ x.disk p) :
    (∃ root, Owns w allowed t root c'.trace ∧ OsPath.under root p = true) ∨
      (Above w p ∧ x.disk p = none) := by
  have hsuf : .did t event o r x :: τ <:+ c'.trace := htrace ▸ List.suffix_refl c'.trace
  obtain ⟨cand, -, -, phase', hstands⟩ := stands_of_line h₀ hr hsuf
  rw [htrace] at hstands
  obtain ⟨phase, hbefore, hstep⟩ := hstands.did
  rcases disk_step hq with ⟨f, q', heq, hdisk⟩ | ⟨-, hdisk⟩
  · rw [heq] at hstep
    rw [hdisk] at hne
    rcases fs_step hstep with hparent | ⟨s, hs, hin⟩
    · exact .inr (parent_changed hparent hne)
    · have howns := (hbefore.owns hs).suffix (htrace ▸ List.suffix_cons _ τ)
      rcases hin with rfl | ⟨hlayout, -⟩
      · rcases Disk.changed hne with ⟨d, hd, -⟩ | ⟨d, hd, hup⟩ | hd | ⟨m, hd⟩ | ⟨b, hd⟩ <;> cases hd
        exact .inl ⟨_, howns, hup⟩
      · exact (layout_changed hlayout hne).imp (fun hup => ⟨_, howns, hup⟩) id
  · rw [hdisk] at hne
    exact absurd rfl hne

/-! ## The invariant -/

/-- The directory has a task that is still to remove it. -/
def Live (w : Conf.Warmer) (allowed : List String) (c : Pool) (t : Tid) (root : OsPath) : Prop :=
  c.threads t ≠ none ∧
    ∀ cand phase, Stands w allowed t c.trace cand phase → phase.Occupies w cand root

/-- Its removal at the end has failed: the one after it was asked for. What
is removed before that is left of an earlier process. -/
def Stuck (t : Tid) (root : OsPath) (τ : List Line) : Prop :=
  ∃ e ρ, (⟨.fs (.removeDirAll root), .error e⟩ : Event Resp) :: ρ <:+ Entry.own t τ ∧ Asked root ρ

theorem Stuck.cons (h : Stuck t root τ) (x : Line) : Stuck t root (x :: τ) := by
  obtain ⟨e, ρ, hsuf, hasked⟩ := h
  cases x with
  | ended => exact ⟨e, ρ, hsuf, hasked⟩
  | did u event o r x =>
    by_cases hut : u = t
    · subst hut
      rw [Stuck, Entry.own_did]
      exact ⟨e, ρ, hsuf.trans (List.suffix_cons _ _), hasked⟩
    · rw [Stuck, Entry.own_did_of_ne hut]
      exact ⟨e, ρ, hsuf, hasked⟩

/-- What every step of a pool keeps. -/
structure Sheltered (w : Conf.Warmer) (allowed : List String) (c₀ c : Pool) : Prop where
  child : ∀ y ∈ c.world.running, c.threads y.tid ≠ none ∧ ∃ root,
    Owns w allowed y.tid root c.trace ∧
      y.child.cwd = root ++ OsPath.sep :: OsPath.ofString "home" ∧
        ∀ cand phase, Stands w allowed y.tid c.trace cand phase → phase.Houses w cand root y.pid
  written : c.world.ChildrenInside → ∀ t cand phase, Stands w allowed t c.trace cand phase →
    phase.Written w cand c.world.disk
  tidy : c.world.ChildrenInside → ∀ p, c.world.disk p ≠ none →
    c₀.world.disk p ≠ none ∨ Above w p ∨ ∃ t root,
      Owns w allowed t root c.trace ∧ OsPath.under root p = true ∧
        (Live w allowed c t root ∨ Stuck t root c.trace)

theorem Start.sheltered (h : Start w allowed c) : Sheltered w allowed c c := by
  refine ⟨fun y hy => ?_, fun _ t cand phase hs => ?_, fun _ p hp => .inl hp⟩
  · rw [h.running] at hy
    cases hy
  · have hat := hs.reached
    rw [h.trace] at hat
    obtain rfl : phase = .idle := hat
    trivial

section Call

variable {event : WorkflowJob} {o : Op} {q : Oracle o} {r : Resp o}

/-- After a call every child has its task, and is in its directory. -/
theorem child_call (h : Sheltered w allowed c₀ c) (h₀ : Start w allowed c₀)
    (hr : (machine w allowed).Run Meets c₀ c') (htrace : c'.trace = .did t event o r c.world :: c.trace)
    (hlive : c'.threads t ≠ none) (hothers : ∀ u, u ≠ t → c'.threads u = c.threads u)
    (hq : step w t o q c.world = some (r, c'.world)) {y : Running} (hy : y ∈ c'.world.running) :
    c'.threads y.tid ≠ none ∧ ∃ root, Owns w allowed y.tid root c'.trace ∧
      y.child.cwd = root ++ OsPath.sep :: OsPath.ofString "home" ∧
        ∀ cand phase, Stands w allowed y.tid c'.trace cand phase →
          phase.Houses w cand root y.pid := by
  have hsuf : c.trace <:+ c'.trace := htrace ▸ List.suffix_cons _ c.trace
  rcases running_step hq hy with ⟨hold, hgone⟩ | ⟨htid, heq⟩
  · obtain ⟨hthread, root, howns, hcwd, hhouses⟩ := h.child y hold
    refine ⟨?_, root, howns.suffix hsuf, hcwd, fun cand phase hstands => ?_⟩
    · by_cases htid : y.tid = t
      · rwa [htid]
      · rwa [hothers _ htid]
    · rw [htrace] at hstands
      by_cases htid : y.tid = t
      · rw [htid] at hstands hhouses
        obtain ⟨phase₁, hbefore, hstep⟩ := hstands.did
        exact houses_step (hhouses cand phase₁ hbefore) hstep (hgone htid)
      · exact hhouses cand phase (hstands.tail (Ne.symm htid))
  · -- the child has just been started, wherever the thread may stand
    obtain rfl := htid
    have hline : .did y.tid event o r c.world :: c.trace <:+ c'.trace :=
      htrace ▸ List.suffix_refl c'.trace
    obtain ⟨cand, -, -, phase', hstands⟩ := stands_of_line h₀ hr hline
    have hspawn : ∀ {cand phase'}, Stands w allowed y.tid c'.trace cand phase' →
        ∃ s stage pids, phase' = .inside s stage pids ∧ y.pid ∈ pids ∧
          y.child.cwd = (scratch w cand s.attempt).home := by
      intro cand phase' hstands
      rw [htrace] at hstands
      obtain ⟨phase₁, -, hstep⟩ := hstands.did
      rw [heq] at hstep
      obtain ⟨s, -, pids, stage, -, hafter, hcwd⟩ := spawn_step hstep
      exact ⟨s, stage, _, hafter, List.mem_cons_self, hcwd⟩
    obtain ⟨s, stage, pids, rfl, -, hcwd⟩ := hspawn hstands
    rw [home_eq] at hcwd
    refine ⟨hlive, _, hstands.owns rfl, hcwd, fun cand' phase'' hstands' => ?_⟩
    obtain ⟨s', stage', pids', rfl, hpid, hcwd'⟩ := hspawn hstands'
    rw [home_eq, hcwd] at hcwd'
    exact ⟨List.append_cancel_right hcwd', hpid⟩

/-- And what has been written is there. -/
theorem written_call (h : Sheltered w allowed c₀ c) (h₀ : Start w allowed c₀)
    (hr : (machine w allowed).Run Meets c₀ c') (hcount : c'.world.attempts ≤ 2 ^ 64)
    (hinside : c.world.ChildrenInside)
    (htrace : c'.trace = .did t event o r c.world :: c.trace)
    (hq : step w t o q c.world = some (r, c'.world))
    (hstands : Stands w allowed u c'.trace cand phase) :
    phase.Written w cand c'.world.disk := by
  have hstands' := hstands
  rw [htrace] at hstands'
  by_cases hut : u = t
  · subst hut
    obtain ⟨phase₁, hbefore, hstep⟩ := hstands'.did
    rcases disk_step hq with ⟨f, q', heq, hdisk⟩ | ⟨hnot, hdisk⟩
    · rw [heq] at hstep
      rw [hdisk]
      exact written_fs (h.written hinside u cand phase₁ hbefore) hstep
    · rw [hdisk]
      exact written_step (h.written hinside u cand phase₁ hbefore) hstep hnot
  · refine (h.written hinside u cand phase (hstands'.tail (Ne.symm hut))).frame fun s hs p hp => ?_
    have hin := under_config hp
    by_contra hne
    rcases changed_of_call h₀ hr htrace hq hne with ⟨root, howns, hup⟩ | ⟨habove, -⟩
    · exact hut (owns_unique h₀ hr hcount (hstands.owns hs) howns hin hup).1
    · exact not_above hin habove

/-- What has just been made is in the directory of a task that will remove
it, or above. -/
theorem made_call (h₀ : Start w allowed c₀) (hr : (machine w allowed).Run Meets c₀ c')
    (hcount : c'.world.attempts ≤ 2 ^ 64)
    (htrace : c'.trace = .did t event o r c.world :: c.trace) (hlive : c'.threads t ≠ none)
    (hq : step w t o q c.world = some (r, c'.world)) (hnone : c.world.disk p = none)
    (hp : c'.world.disk p ≠ none) :
    Above w p ∨ ∃ root, Owns w allowed t root c'.trace ∧ OsPath.under root p = true ∧
      Live w allowed c' t root := by
  have hne : c'.world.disk p ≠ c.world.disk p := hnone ▸ hp
  rcases changed_of_call h₀ hr htrace hq hne with ⟨root, howns, hup⟩ | ⟨habove, -⟩
  · refine .inr ⟨root, howns, hup, hlive, fun cand phase' hstands => ?_⟩
    have hstands' := hstands
    rw [htrace] at hstands'
    obtain ⟨phase, hbefore, hstep⟩ := hstands'.did
    rcases disk_step hq with ⟨f, q', heq, hdisk⟩ | ⟨-, hdisk⟩
    · rw [heq] at hstep
      rw [hdisk] at hp hne
      rcases fs_step hstep with hparent | ⟨s, hs, rfl | ⟨hlayout, hoccupies⟩⟩
      · exact absurd (parent_changed hparent hne).1 (howns.not_above hup)
      · exact absurd (Disk.removed hnone) hp
      · have hsuf : c.trace <:+ c'.trace := htrace ▸ List.suffix_cons _ c.trace
        rcases layout_changed hlayout hne with hin | ⟨habove, -⟩
        · obtain ⟨-, rfl⟩ := owns_unique h₀ hr hcount howns ((hbefore.owns hs).suffix hsuf) hup hin
          exact hoccupies
        · exact absurd habove (howns.not_above hup)
    · rw [hdisk] at hne
      exact absurd rfl hne
  · exact .inl habove

/-- A directory that has a task has it after the call, unless it is gone
or stuck. -/
theorem live_call (h : Live w allowed c u root) (h₀ : Start w allowed c₀)
    (hr : (machine w allowed).Run Meets c₀ c') (hlive : c'.threads t ≠ none)
    (htrace : c'.trace = .did t event o r c.world :: c.trace)
    (hothers : ∀ u, u ≠ t → c'.threads u = c.threads u)
    (hq : step w t o q c.world = some (r, c'.world)) (hup : OsPath.under root p = true)
    (hp : c'.world.disk p ≠ none) : Live w allowed c' u root ∨ Stuck u root c'.trace := by
  by_cases hut : u = t
  · subst hut
    -- the task's own removal of its root: it failed, and the root is stuck, or nothing is left
    -- below it
    by_cases hremove : ∃ r', (⟨o, r⟩ : Event Resp) = ⟨.fs (.removeDirAll root), r'⟩
    · obtain ⟨r', heq⟩ := hremove
      cases r' with
      | error e =>
        have hline : .did u event o r c.world :: c.trace <:+ c'.trace :=
          htrace ▸ List.suffix_refl c'.trace
        obtain ⟨cand, -, -, phase', hstands⟩ := stands_of_line h₀ hr hline
        rw [htrace] at hstands
        obtain ⟨phase, hbefore, hstep⟩ := hstands.did
        rw [heq] at hstep
        refine .inr ⟨e, Entry.own u c.trace, ?_, asked_of_removal
          (shows_at hbefore.reached hbefore.about) (h.2 cand phase hbefore) rfl hstep⟩
        rw [htrace, Entry.own_did, heq]
      | ok =>
        refine absurd ?_ hp
        rcases disk_step hq with ⟨f, q', heq', hdisk⟩ | ⟨hnot, -⟩
        · have hcall := heq.symm.trans heq'
          obtain rfl : .removeDirAll root = f := by simpa using congrArg Sigma.fst hcall
          rw [hdisk]
          exact Disk.gone hup (eq_of_heq (Sigma.mk.inj hcall).2).symm
        · exact absurd heq (hnot _ _)
    · refine .inl ⟨hlive, fun cand phase' hstands => ?_⟩
      rw [htrace] at hstands
      obtain ⟨phase, hbefore, hstep⟩ := hstands.did
      exact (occupies_step (h.2 cand phase hbefore) hstep).resolve_right hremove
  · refine .inl ⟨?_, fun cand phase hstands => ?_⟩
    · rw [hothers u hut]
      exact h.1
    · rw [htrace] at hstands
      exact h.2 cand phase (hstands.tail (Ne.symm hut))

end Call

/-- Ends leave all this: a task that ends has left its directory. -/
theorem Sheltered.drop (h : Sheltered w allowed c₀ c) (h₀ : Start w allowed c₀)
    (hr : (machine w allowed).Run Meets c₀ c) {event : WorkflowJob} {x : World}
    (hat : c.threads t = some (event, .ret none)) (hdisk : x.disk = c.world.disk)
    (hrunning : x.running = c.world.running) (hkept : x.scribbles = c.world.scribbles) :
    Sheltered w allowed c₀
      { toShared := c.toShared.ended t event x, threads := Function.update c.threads t none } := by
  -- the task that ends has left its directory, so what is occupied is another's
  have hother : ∀ {u root}, Owns w allowed u root c.trace →
      (∀ cand phase, Stands w allowed u c.trace cand phase → phase.Occupies w cand root) → u ≠ t := by
    rintro u root howns hall rfl
    obtain ⟨cand, phase, hstands, hleft⟩ := left_of_exit h₀ hr hat howns
    exact hleft (hall cand phase hstands)
  have hthreads : ∀ {u}, u ≠ t → Function.update c.threads t none u = c.threads u :=
    fun hut => Function.update_of_ne hut ..
  have hbefore : x.ChildrenInside → c.world.ChildrenInside := fun hinside e he =>
    hinside e (hkept.symm ▸ he)
  have hsuf : c.trace <:+ (c.toShared.ended t event x).trace := List.suffix_cons _ c.trace
  refine ⟨fun y hy => ?_, fun hinside u cand phase hs => ?_, fun hinside p hp => ?_⟩
  · have hy : y ∈ x.running := hy
    rw [hrunning] at hy
    obtain ⟨hthread, root, howns, hcwd, hhouses⟩ := h.child y hy
    have hut := hother howns fun cand phase hs => (hhouses cand phase hs).1
    refine ⟨?_, root, howns.suffix hsuf, hcwd, fun cand phase hs => hhouses cand phase hs.ended⟩
    show Function.update c.threads t none y.tid ≠ none
    rwa [hthreads hut]
  · show phase.Written w cand x.disk
    rw [hdisk]
    exact h.written (hbefore hinside) u cand phase hs.ended
  · have hp : x.disk p ≠ none := hp
    rw [hdisk] at hp
    refine (h.tidy (hbefore hinside) p hp).imp id fun hrest => hrest.imp id ?_
    rintro ⟨u, root, howns, hup, hlive | hstuck⟩
    · refine ⟨u, root, howns.suffix hsuf, hup, .inl ⟨?_, fun cand phase hs =>
        hlive.2 cand phase hs.ended⟩⟩
      show Function.update c.threads t none u ≠ none
      rw [hthreads (hother howns hlive.2)]
      exact hlive.1
    · exact ⟨u, root, howns.suffix hsuf, hup, .inr hstuck⟩

/-- A child that keeps to its directory changes what is in its task's, and
not the two files. -/
theorem changed_of_scribble (h : Sheltered w allowed c₀ c) {e : Scribble} {x : World}
    (he : e.apply c.world = some x) (hinside : e.Inside) :
    c.threads e.writer.tid ≠ none ∧ ∃ d : WarmWorkdir,
      Owns w allowed e.writer.tid d.root c.trace ∧
        (∀ cand phase, Stands w allowed e.writer.tid c.trace cand phase →
          phase.Occupies w cand d.root) ∧
        ∀ p, x.disk p ≠ c.world.disk p →
          OsPath.under d.root p = true ∧ p ≠ d.netrc ∧ p ≠ d.nixConfDir.join "nix.conf" := by
  obtain ⟨hwriter, -, -, -, hchanged⟩ := Scribble.changed he
  obtain ⟨hthread, root, howns, hcwd, hhouses⟩ := h.child _ hwriter
  refine ⟨hthread, ⟨root⟩, howns, fun cand phase hs => (hhouses cand phase hs).1, fun p hne => ?_⟩
  obtain ⟨n, hmem⟩ := hchanged p hne
  exact hinside ⟨root⟩ hcwd p n hmem

/-- What a child does leaves all this. -/
theorem Sheltered.scribble (h : Sheltered w allowed c₀ c) (h₀ : Start w allowed c₀)
    (hr : (machine w allowed).Run Meets c₀ c) (hcount : c.world.attempts ≤ 2 ^ 64) {e : Scribble}
    {x : World} (he : e.apply c.world = some x) : Sheltered w allowed c₀ { c with world := x } := by
  obtain ⟨-, hrunning, -, hmore, -⟩ := Scribble.changed he
  have hsplit : x.ChildrenInside → e.Inside ∧ c.world.ChildrenInside := fun hinside => by
    unfold World.ChildrenInside at hinside
    rw [hmore] at hinside
    exact List.forall_mem_cons.mp hinside
  refine ⟨fun y hy => ?_, fun hinside u cand phase hs => ?_, fun hinside p hp => ?_⟩
  · have hy : y ∈ x.running := hy
    rw [hrunning] at hy
    exact h.child y hy
  · obtain ⟨hin, hbefore⟩ := hsplit hinside
    obtain ⟨-, d, howns, -, hchanged⟩ := changed_of_scribble h he hin
    refine (h.written hbefore u cand phase hs).frame fun s htrip p hp => ?_
    by_contra hne
    obtain ⟨hup, hnetrc, hconf⟩ := hchanged p hne
    have hs : Stands w allowed u c.trace cand phase := hs
    obtain ⟨-, hroot⟩ := owns_unique h₀ hr hcount howns (hs.owns htrip) hup (under_config hp)
    obtain rfl : d = scratch w cand s.attempt := WarmWorkdir.ext hroot
    exact hp.elim hnetrc hconf
  · obtain ⟨hin, hbefore⟩ := hsplit hinside
    obtain ⟨hthread, d, howns, hoccupies, hchanged⟩ := changed_of_scribble h he hin
    by_cases hsame : x.disk p = c.world.disk p
    · have hp : x.disk p ≠ none := hp
      rw [hsame] at hp
      exact h.tidy hbefore p hp
    · exact .inr (.inr ⟨_, d.root, howns, (hchanged p hsame).1, .inl ⟨hthread, hoccupies⟩⟩)

/-- One step. -/
theorem Sheltered.step {e : Option Line} (h : Sheltered w allowed c₀ c) (h₀ : Start w allowed c₀)
    (hr : (machine w allowed).Run Meets c₀ c) (hs : (machine w allowed).Step c e c')
    (hr' : (machine w allowed).Run Meets c₀ c') (hcount : c'.world.attempts ≤ 2 ^ 64) :
    Sheltered w allowed c₀ c' := by
  cases hs with
  | @call t event o f q r x hat hq hnew =>
    have hlive : Function.update c.threads t (some (event, f r)) t ≠ none := by
      rw [Function.update_self]
      exact Option.some_ne_none _
    have hothers : ∀ u, u ≠ t →
        Function.update c.threads t (some (event, f r)) u = c.threads u :=
      fun u hut => Function.update_of_ne hut ..
    have hstep : (machine w allowed).Step _ _ _ := .call hat hq hnew
    have hbefore := childrenInside_of_step hstep
    refine ⟨fun y hy => ?_, fun hinside u cand phase hstands => ?_, fun hinside p hp => ?_⟩
    · exact child_call h h₀ hr' rfl hlive hothers hq hy
    · exact written_call h h₀ hr' hcount (hbefore hinside) rfl hq hstands
    · by_cases hnone : c.world.disk p = none
      · refine .inr ((made_call h₀ hr' hcount rfl hlive hq hnone hp).imp id ?_)
        rintro ⟨root, howns, hup, hmade⟩
        exact ⟨t, root, howns, hup, .inl hmade⟩
      · refine (h.tidy (hbefore hinside) p hnone).imp id fun hrest => hrest.imp id ?_
        rintro ⟨u, root, howns, hup, hlived⟩
        refine ⟨u, root, howns.suffix (List.suffix_cons _ c.trace), hup, ?_⟩
        rcases hlived with hlived | hstuck
        · exact live_call hlived h₀ hr' hlive rfl hothers hq hup hp
        · exact .inr (hstuck.cons _)
  | again hat => cases ((h₀.same hr).thread _ _ _ hat).2.1
  | exit hat => exact h.drop h₀ hr hat rfl rfl rfl
  | crash hat hw => cases hw
  | env hw =>
    refine h.scribble h₀ hr ?_ hw
    have hsame := (Scribble.changed hw).2.2.1
    simp only at hcount
    omega

theorem attempts_mono {e : Option Line} (hs : (machine w allowed).Step c e c') :
    c.world.attempts ≤ c'.world.attempts :=
  (lasting_attempts c.world.attempts).next hs (Nat.le_refl _)

theorem Start.sheltered_run (h₀ : Start w allowed c₀) (hr : (machine w allowed).Run Meets c₀ c)
    (hcount : c.world.attempts ≤ 2 ^ 64) : Sheltered w allowed c₀ c := by
  induction hr with
  | start => exact h₀.sheltered
  | step hr hs hm ih =>
    exact (ih (Nat.le_trans (attempts_mono hs) hcount)).step h₀ hr hs (hr.step hs hm) hcount

/-! ## Every run -/

/-- The child is started in its task's directory, with the token granted to
the task and the configuration of the directory, as they were written. -/
structure Prepared (w : Conf.Warmer) (allowed : List String) (t : Tid) (cand : WarmCandidate)
    (s : Trip) (child : Child) (x : World) (σ : List Line) : Prop where
  owns : Owns w allowed t (scratch w cand s.attempt).root σ
  cwd : child.cwd = (scratch w cand s.attempt).home
  granted : ⟨.contentsReadToken cand.repoId, .ok s.token⟩ ∈ Entry.own t σ
  netrc : x.disk (scratch w cand s.attempt).netrc = some (.file (bytes (netrcContents s.token)))
  nixConf : x.disk ((scratch w cand s.attempt).nixConfDir.join "nix.conf") =
    some (.file (bytes (w.nixConf (warmSlug cand.owner cand.repo cand.headSha s.attempt))))

/-- What the samples warm. -/
def sampleCandidate : WarmCandidate :=
  ⟨"o", "r", 7, "main", "0123456789abcdef0123456789abcdef01234567"⟩

/-- The first warm's build leaves a file in its home. -/
def sampleScribble : Scribble where
  writer := ⟨0, 1, build sampleWarmer (scratch sampleWarmer sampleCandidate 0)
    (installable sampleCandidate "devShells.aarch64-linux.default") "devShells.aarch64-linux.default"⟩
  writes := [((scratch sampleWarmer sampleCandidate 0).home.join "out", some (.file []))]

/-- Two warms of one tip, the mark of the first having lapsed, and a child
at work. -/
def twoWarms : List (machine sampleWarmer ["o/r"]).Move :=
  .replicate 31 (.call 0 (goesWell 0 1)) ++ .replicate 31 (.call 1 (goesWell 700000000000 3)) ++
    [.env sampleScribble]

/-- The step is a call of the task's, or the doing of a child; and a child
that keeps to its directory is then the task's own, and it is not at the
two files. -/
def ByOwner (t : Tid) (root p : OsPath) (c c' : Pool) (e : Option Line) : Prop :=
  (∃ event o r, e = some (.did t event o r c.world)) ∨
    (e = none ∧ ∃ y : Scribble, c'.world.scribbles = y :: c.world.scribbles ∧
      y.writer ∈ c.world.running ∧ (∃ n, (p, n) ∈ y.writes) ∧
        (y.Inside → y.writer.tid = t ∧ ∀ d : WarmWorkdir, d.root = root →
          p ≠ d.netrc ∧ p ≠ d.nixConfDir.join "nix.conf"))

/-- What a task's step changes is in its directory, or above. -/
theorem owner_of_line (h₀ : Start w allowed c₀) (hr : (machine w allowed).Run Meets c₀ c)
    {e : Line} (hs : (machine w allowed).Step c (some e) c')
    (hne : c'.world.disk p ≠ c.world.disk p) :
    (∃ event o r, e = .did e.tid event o r c.world) ∧
      ((∃ root, Owns w allowed e.tid root c'.trace ∧ OsPath.under root p = true) ∨ Above w p) := by
  have hr' : (machine w allowed).Run (fun _ _ => True) c₀ c' :=
    (hr.mono fun _ _ _ => trivial).step hs fun _ _ => trivial
  cases hs with
  | @call t event o f q r x hat hq hnew =>
    exact ⟨⟨event, o, r, rfl⟩, (changed_of_call h₀ hr' rfl hq hne).imp id And.left⟩
  | exit => exact absurd rfl hne
  | crash hat hw => cases hw

/-- **What is in a warm's directory is changed by no other warm**, and by no
child of another as long as that keeps to its own. -/
theorem isolated_of_step (h₀ : Start w allowed c₀) (hr : (machine w allowed).Run Meets c₀ c)
    {e : Option Line} (hs : (machine w allowed).Step c e c')
    (hcount : c'.world.attempts ≤ 2 ^ 64) (howns : Owns w allowed t root c'.trace)
    (hup : OsPath.under root p = true) (hne : c'.world.disk p ≠ c.world.disk p) :
    ByOwner t root p c c' e := by
  have hall : (machine w allowed).Run (fun _ _ => True) c₀ c := hr.mono fun _ _ _ => trivial
  have hr' := hall.step hs fun _ _ => trivial
  cases e with
  | some e =>
    obtain ⟨⟨event, o, r, heq⟩, howner⟩ := owner_of_line h₀ hr hs hne
    rcases howner with ⟨root', howns', hup'⟩ | habove
    · obtain ⟨rfl, -⟩ := owns_unique h₀ hr' hcount howns howns' hup hup'
      exact .inl ⟨event, o, r, congrArg some heq⟩
    · exact absurd habove (howns.not_above hup)
  | none =>
    cases hs with
    | again => exact absurd rfl hne
    | @env y x hw =>
      obtain ⟨hwriter, -, hsame, hmore, hchanged⟩ := Scribble.changed hw
      refine .inr ⟨rfl, y, hmore, hwriter, hchanged p hne, fun hinside => ?_⟩
      have hcount' : c.world.attempts ≤ 2 ^ 64 := hsame ▸ hcount
      obtain ⟨-, d, howns', -, hfiles⟩ :=
        changed_of_scribble (h₀.sheltered_run hall hcount') hw hinside
      obtain ⟨hup', hnetrc, hconf⟩ := hfiles p hne
      obtain ⟨htid, hroot⟩ := owns_unique h₀ hr' hcount howns howns' hup hup'
      refine ⟨htid.symm, fun d' hd' => ?_⟩
      obtain rfl : d' = d := WarmWorkdir.ext (hd'.trans hroot)
      exact ⟨hnetrc, hconf⟩

/-- Where the first warm of `twoWarms` has its netrc. -/
def sampleNetrc : OsPath := (scratch sampleWarmer sampleCandidate 0).netrc

/-- What the last of these calls does to it. -/
def writesNetrc : Option (Bool × ℕ) :=
  ((machine sampleWarmer ["o/r"]).follow (fun _ _ => true) (.replicate 17 (.call 0 (goesWell 0 1)))
    samplePool).bind fun c =>
      ((machine sampleWarmer ["o/r"]).move c (.call 0 (goesWell 0 1))).map fun (e, c') =>
        (e.isSome ∧ c'.world.disk sampleNetrc ≠ c.world.disk sampleNetrc ∧
          ¬ OsPath.under sampleNetrc (parentDir sampleWarmer), c'.world.attempts)

theorem isolated_of_step_sample :
    ∃ c c' e t root, (machine sampleWarmer ["o/r"]).Run (fun _ _ => True) samplePool c ∧
      (machine sampleWarmer ["o/r"]).Step c e c' ∧
      c'.world.disk sampleNetrc ≠ c.world.disk sampleNetrc ∧
        ByOwner t root sampleNetrc c c' e := by
  have hwrites : writesNetrc = some (true, 1) := by decide +kernel
  obtain ⟨c, hc, hmove⟩ := Option.bind_eq_some_iff.mp hwrites
  obtain ⟨⟨e, c'⟩, hmove, htest⟩ := Option.map_eq_some_iff.mp hmove
  obtain ⟨htest, hattempts⟩ := Prod.mk.inj htest
  obtain ⟨hsome, hne, habove⟩ := of_decide_eq_true htest
  obtain ⟨e, rfl⟩ := Option.isSome_iff_exists.mp hsome
  have hr : (machine sampleWarmer ["o/r"]).Run (fun _ _ => True) samplePool c :=
    (Machine.run_of_follow hc).mono fun _ _ _ => trivial
  have hs := Machine.step_of_move hmove
  have hcount : c'.world.attempts ≤ 2 ^ 64 := by
    rw [hattempts]
    decide
  obtain ⟨root, howns, hup⟩ :=
    (owner_of_line start_samplePool hr hs hne).2.resolve_right habove
  exact ⟨c, c', _, _, root, hr, hs, hne,
    isolated_of_step start_samplePool hr hs hcount howns hup hne⟩

end Warm

end GhaConsumer

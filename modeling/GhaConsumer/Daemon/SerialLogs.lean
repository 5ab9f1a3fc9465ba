import GhaConsumer.Daemon.Slots

/-!
# The daemon — the prune of serial logs

The prune unlinks a log by its path, on the strength of a look at it, and
does not look again: each log is written once ever, its source says. But
a job id the reconciler mints a second time has the same VM name, and its
worker replaces the log of the first run. Where no log is replaced or
changed between the look at it and the unlink, every log unlinked has
outlived the retention (`prunesOld_of_undisturbed`).
-/

namespace GhaConsumer

namespace SerialLogs

open Interleave Trace Daemon
open Pause (Own)
open Slots (Tidy)

/-! ## What the prune stands at -/

/-- The latest reading of the clock. -/
def lastNow : Own → ℕ
  | [] => 0
  | ⟨.fs .now, now⟩ :: _ => now
  | _ :: τ => lastNow τ

/-- The log the prune is about to unlink, and what its look at it saw. -/
def doomed (retentionSecs : ℕ) : Own → Option (Path × Files.Meta)
  | ⟨.fs (.lstat p), .ok md⟩ :: τ =>
    if p.dir = .logs ∧ outlived md (lastNow τ) retentionSecs = true then some (p, md) else none
  | _ => none

/-- What the collector makes sure of: it unlinks no log but the one it has
just looked at and found to have outlived the retention. -/
def Good (cfg : Config) (k : Task) (τ : Own) (e : Event Resp) : Prop :=
  k = .gc → ∀ p, e.1 = .fs (.removeFile p) → p.dir = .logs →
    ∃ md, doomed cfg.serialLogRetentionSecs.toNat τ = some (p, md)

/-! ## The collector's habit -/

section Habit

variable {cfg : Config} {fuel : ℕ} {o : Op} {τ : Own} {now : ℕ} {k : Task}

theorem good_of_keeps (ho : ∀ p, o = .fs (.removeFile p) → p.dir ≠ .logs) (r : Resp o) :
    Good cfg k τ ⟨o, r⟩ :=
  fun _ p he hp => absurd hp (ho p he)

theorem good_of_ne (hk : k ≠ .gc) {e : Event Resp} : Good cfg k τ e :=
  fun h => absurd h hk

/-- Programs that unlink no log. -/
theorem keeps_triple {α : Type} {p : Prog Resp α}
    (hp : p.Only fun o => ∀ p, o = .fs (.removeFile p) → p.dir ≠ .logs) :
    Triple (Good cfg k) (fun _ => True) p fun _ _ => True :=
  Triple.only hp fun _ r _ ho _ => ⟨good_of_keeps ho r, trivial⟩

/-- One entry is looked at, judged by the reading of the clock made before
the first, and unlinked. -/
theorem pruneSerialLog_triple (name : String) :
    Triple (Good cfg k) (fun τ => lastNow τ = now)
      (pruneSerialLog cfg.serialLogRetentionSecs.toNat now name) fun _ τ => lastNow τ = now := by
  unfold pruneSerialLog
  split
  · exact Triple.ret fun _ hτ => hτ
  · refine Triple.step
      (B := fun r τ => ∃ σ, τ = ⟨.fs (.lstat ⟨.logs, name⟩), r⟩ :: σ ∧ lastNow σ = now)
      (fun τ r hτ => ⟨good_of_keeps (by simp) r, τ, rfl, hτ⟩) fun r => ?_
    split
    · refine Triple.ret fun τ hτ => ?_
      obtain ⟨σ, rfl, hσ⟩ := hτ
      exact hσ
    · rename_i md
      split
      · refine Triple.ret fun τ hτ => ?_
        obtain ⟨σ, rfl, hσ⟩ := hτ
        exact hσ
      · rename_i hold
        refine Triple.step (B := fun _ τ => lastNow τ = now) (fun τ r hτ => ?_)
          fun _ => Triple.ret fun _ hτ => hτ
        obtain ⟨σ, rfl, hσ⟩ := hτ
        refine ⟨fun _ p he _ => ⟨md, ?_⟩, hσ⟩
        cases he
        have hold' : outlived md (lastNow σ) cfg.serialLogRetentionSecs.toNat = true := by
          rw [hσ]
          simpa using hold
        exact if_pos ⟨rfl, hold'⟩

theorem pruneSerialLogs_triple :
    Triple (Good cfg k) (fun _ => True)
      (pruneSerialLogs fuel cfg.serialLogRetentionSecs.toNat) fun _ _ => True := by
  unfold pruneSerialLogs
  split
  · exact Triple.ret fun _ _ => trivial
  · refine Triple.step (B := fun _ _ => True)
      (fun τ r _ => ⟨good_of_keeps (by simp) r, trivial⟩) fun r => ?_
    split
    · exact Triple.ret fun _ _ => trivial
    · refine Triple.step (B := fun now τ => lastNow τ = now)
        (fun τ now _ => ⟨good_of_keeps (by simp) now, rfl⟩) fun now => ?_
      refine Triple.bind (Q := fun _ _ => True) ?_ fun _ => Triple.ret fun _ _ => trivial
      exact Triple.whileSome (I := fun _ τ => lastNow τ = now) (J := fun _ _ τ => lastNow τ = now)
        (Q := fun _ _ => True)
        (fun _ => Triple.op fun τ r hτ => ⟨good_of_keeps (by simp) r, hτ⟩)
        (fun _ _ => pruneSerialLog_triple _) (fun _ _ _ => trivial) (fun _ _ _ _ => trivial)
        (fun _ _ _ => trivial) fuel ()

theorem keeps_of_prunes {dir : Dir} (hdir : dir ≠ .logs) (ho : o.prunes dir) (p : Path)
    (he : o = .fs (.removeFile p)) : p.dir ≠ .logs := by
  subst he
  obtain rfl : p.dir = dir := ho
  exact hdir

theorem keeps_of_expires (ho : o.expires) (p : Path) (he : o = .fs (.removeFile p)) :
    p.dir ≠ .logs := by
  subst he
  rcases ho with ⟨name, ho⟩ | ho | ho | ⟨name, ho⟩
  · exact ho.elim
  all_goals cases ho

theorem keeps_of_finalizes (name : String) (ho : o.finalizes name) (p : Path)
    (he : o = .fs (.removeFile p)) : p.dir ≠ .logs :=
  keeps_of_expires (.inl ⟨name, ho⟩) p he

theorem pass_triple {c : Call} (hc : c.reaps) :
    Triple (Good cfg k) (fun _ => True) (c.impl cfg fuel) fun _ _ => True := by
  have hlima : ∀ o p, Op.lima o = .fs (.removeFile p) → p.dir ≠ .logs := by simp
  refine keeps_triple ?_
  cases c with
  | host o =>
    refine Prog.only_op fun p he => ?_
    subst he
    exact hc.elim
  | finalizeError cur reason =>
    exact (finalizeError_only cur reason).mono fun _ => keeps_of_finalizes cur
  | stop vm => exact Lima.stopVm_only hlima vm
  | delete vm => exact Lima.deleteVm_only hlima cfg.codec vm
  | listInstances => exact Lima.listInstances_only hlima cfg.codec
  | _ => exact hc.elim

/-- A sweep unlinks logs in their prune alone. -/
theorem sweepInner_triple :
    Triple (Good cfg k) (fun _ => True) ((sweepInner cfg fuel).lower (Call.impl cfg fuel))
      fun _ _ => True := by
  have hpasses : ∀ {α : Type} {p : Proc α}, p.Only Call.reaps →
      Triple (Good cfg k) (fun _ => True) (p.lower (Call.impl cfg fuel)) fun _ _ => True :=
    fun hp => Triple.lower_only hp fun _ => pass_triple
  have hprunes : ∀ {dir : Dir}, dir ≠ .logs → ∀ o, Op.prunes dir o →
      ∀ p, o = .fs (.removeFile p) → p.dir ≠ .logs := fun hdir _ => keeps_of_prunes hdir
  refine Triple.lowerStep (B := fun _ _ => True)
    (keeps_triple ((expireStaleCur_only fuel _).mono fun _ => keeps_of_expires)) fun r => ?_
  split
  · exact Triple.ret fun _ _ => trivial
  · refine Triple.lowerStep (B := fun _ _ => True) (keeps_triple (pruneOldArchives_only
      (hprunes (by decide)) (hprunes (by decide)) _)) fun _ => ?_
    refine Triple.lowerStep (B := fun _ _ => True) pruneSerialLogs_triple fun _ => ?_
    refine Triple.lowerStep (B := fun _ _ => True)
      (keeps_triple ((pruneStaleJitBlobs_only _).mono (hprunes (by decide)))) fun _ => ?_
    exact Triple.lowerBind (hpasses vmPass_only) fun reaped =>
      Triple.lowerBind (hpasses (runnerPass_only reaped _)) fun _ => Triple.ret fun _ _ => trivial

variable (cfg fuel) in
/-- What the daemon's threads make sure of, by task. -/
def habits : Habits (machine cfg fuel) where
  good _ k := Good cfg k
  pre _ _ _ := True

theorem sound_habits : (habits cfg fuel).Sound where
  forks _ := trivial
  body t k := by
    have hpost : ∀ next τ, (habits cfg fuel).post t next τ := by
      intro next τ
      cases next <;> trivial
    by_cases hk : k = .gc
    · subst hk
      refine Triple.step (B := fun _ _ => True)
        (fun τ r _ => ⟨good_of_keeps (by simp) r, trivial⟩) fun _ => ?_
      exact sweepInner_triple.bind fun _ => Triple.ret fun τ _ => hpost _ τ
    · refine (Triple.of_only (Prog.only_true _) (Prog.returns_true _)
        fun o r τ _ => good_of_ne hk).post fun next τ _ => hpost next τ

end Habit

/-! ## Between the look and the unlink -/

/-- The call makes a file at `p`, or writes or stamps the one there. -/
def Refreshes (p : Path) : Line → Prop
  | .did _ _ (.fs (.createNew p')) (.ok _) _ => p' = p
  | .did _ _ (.fs (.writeAll i _)) _ w | .did _ _ (.fs (.setModified i _)) _ w =>
    w.fs.tree.ino p = some i
  | _ => False

/-- No other thread makes, writes or stamps the log the prune is about to
unlink. -/
def Undisturbed (cfg : Config) (s : Daemon.State) (x : Line) : Prop :=
  ∀ t p md, t ≠ x.tid →
    doomed cfg.serialLogRetentionSecs.toNat (Entry.own t s.trace) = some (p, md) →
      ¬ Refreshes p x

section Frame

variable {cfg : Config} {k : Task} {o : Files.Op Dir String} {r : Files.Resp o}
variable {q : Files.Oracle String} {t : Tid} {s' : FileState} {p : Path} {i : Files.Ino}
variable {w : World}

theorem not_logs_of_archive {d : Dir} (h : d.isArchive = true) : d ≠ .logs := by
  rintro rfl
  cases h

/-- A move between other directories. -/
theorem mtime_of_move {a b : Path} (hp : p.dir = .logs) (ha : a.dir ≠ .logs) (hb : b.dir ≠ .logs)
    (hi : (w.fs.move a b).tree.ino p = some i) :
    w.fs.tree.ino p = some i ∧
      ((w.fs.move a b).tree.node i).mtime = (w.fs.tree.node i).mtime := by
  have hne : ∀ {p' : Path}, p'.dir ≠ .logs → p ≠ p' := by
    rintro p' hp' rfl
    exact hp' hp
  rw [Files.State.tree_move, Files.Tree.ino_move_of_ne (hne ha) (hne hb)] at hi
  rw [Files.State.tree_move, Files.Tree.node_move]
  exact ⟨hi, rfl⟩

/-- No rename is from or to where the logs are. -/
theorem renames_of_tidy {a b : Path} (htidy : Tidy cfg k (.fs (.rename a b))) :
    a.dir ≠ .logs ∧ b.dir ≠ .logs := by
  obtain ⟨ha, hb⟩ : (a.dir = .cur ∨ a.dir.isArchive = true) ∧ b.dir.isArchive = true := htidy
  refine ⟨?_, not_logs_of_archive hb⟩
  rcases ha with ha | ha
  · rw [ha]
    decide
  · exact not_logs_of_archive ha

theorem renames_of_tidy_noClobber {a b : Path} (htidy : Tidy cfg k (.fs (.renameNoClobber a b))) :
    a.dir ≠ .logs ∧ b.dir ≠ .logs := by
  rcases htidy with ⟨ha, hb⟩ | ⟨name, rfl, ha⟩
  · refine ⟨?_, not_logs_of_archive hb⟩
    rcases ha with ha | ha
    · rw [ha]
      decide
    · exact not_logs_of_archive ha
  · refine ⟨?_, by simp⟩
    rcases ha with rfl | ⟨-, job, nonce, rfl⟩ <;> simp

/-- A call that neither refreshes a log nor moves a file there leaves what
it was, or takes it away. -/
theorem mtime_of_step (h : Files.step t o q w.fs = some (r, s')) (htidy : Tidy cfg k (.fs o))
    (hp : p.dir = .logs) (hcalm : ¬ Refreshes p (.did t k (.fs o) r w))
    (hi : s'.tree.ino p = some i) :
    w.fs.tree.ino p = some i ∧ (s'.tree.node i).mtime = (w.fs.tree.node i).mtime := by
  have hsame : s'.tree = w.fs.tree →
      w.fs.tree.ino p = some i ∧ (s'.tree.node i).mtime = (w.fs.tree.node i).mtime := by
    intro ht
    rw [ht] at hi ⊢
    exact ⟨hi, rfl⟩
  cases o with
  | rename a b =>
    obtain ⟨ha, hb⟩ := renames_of_tidy htidy
    rcases r with e | ⟨⟨⟩⟩
    · exact hsame (by rw [Files.rename_error h])
    · obtain ⟨-, rfl⟩ := Files.rename_ok h
      exact mtime_of_move hp ha hb hi
  | renameNoClobber a b =>
    obtain ⟨ha, hb⟩ := renames_of_tidy_noClobber htidy
    rcases r with e | ⟨⟨⟩⟩
    · exact hsame (by rw [Files.renameNoClobber_error h])
    · obtain ⟨-, -, rfl⟩ := Files.renameNoClobber_ok h
      exact mtime_of_move hp ha hb hi
  | removeFile a =>
    rcases r with e | ⟨⟨⟩⟩
    · exact hsame (by rw [Files.removeFile_error h])
    · obtain ⟨-, rfl⟩ := Files.removeFile_ok h
      have hap : p ≠ a := by
        rintro rfl
        rw [Files.State.tree_unlink, Files.Tree.ino_unlink_self] at hi
        cases hi
      rw [Files.State.tree_unlink, Files.Tree.ino_unlink_of_ne hap] at hi
      exact ⟨hi, rfl⟩
  | createNew a =>
    simp only [Files.step] at h
    split at h
    · cases h
      exact hsame rfl
    · split at h <;> cases h
      · exact hsame rfl
      · rw [Files.State.tree_create, Files.Tree.ino_create_of_ne fun he => hcalm he.symm] at hi
        rw [Files.State.tree_create,
          Files.Tree.node_create_of_ne (Nat.ne_of_lt (Files.Tree.lt_next_of_ino hi))]
        exact ⟨hi, rfl⟩
  | writeAll j data =>
    have hij : i ≠ j := by
      rintro rfl
      refine hcalm (?_ : w.fs.tree.ino p = some i)
      rw [← hi]
      exact (Files.ino_of_step h (by simp [Files.Op.paths])).symm
    simp only [Files.step] at h
    split at h <;> cases h
    all_goals
      rw [Files.State.tree_overwrite] at hi ⊢
      rw [Files.Tree.node_setNode_of_ne hij]
      exact ⟨hi, rfl⟩
  | setModified j time =>
    simp only [Files.step] at h
    split at h <;> cases h
    · exact hsame rfl
    · have hij : i ≠ j := by
        rintro rfl
        exact hcalm hi
      rw [Files.State.tree_stamp] at hi ⊢
      rw [Files.Tree.node_setNode_of_ne hij]
      exact ⟨hi, rfl⟩
  | write a data =>
    -- only reasons of failures are written so
    have hap : p ≠ a := by
      rintro rfl
      rw [show p.dir = .error from htidy] at hp
      cases hp
    rw [Files.ino_of_step h (by simpa [Files.Op.paths] using hap)] at hi
    rw [Files.node_of_write h hi hap]
    exact ⟨hi, rfl⟩
  | _ =>
    cases Files.change_of_step h with
    | same _ ht => exact hsame ht
    | create _ hq => cases hq
    | move hm => cases hm
    | overwrite _ hr => exact hr.elim

end Frame

/-! ## Runs -/

/-- Every log the prune unlinks has outlived the retention by then. -/
def PrunesOld (cfg : Config) (τ : Daemon.History) : Prop :=
  ∀ t name w σ, .did t .gc (.fs (.removeFile ⟨.logs, name⟩)) (.ok ()) w :: σ <:+ τ →
    ∃ i, w.fs.tree.ino ⟨.logs, name⟩ = some i ∧
      cfg.serialLogRetentionSecs.toNat < ageSecs w.fs.now (w.fs.tree.node i).mtime

/-- No thread has read a time to come, and a log about to be unlinked is as
it was seen. -/
structure Inv (cfg : Config) (s : Daemon.State) : Prop where
  past : ∀ t, lastNow (Entry.own t s.trace) ≤ s.world.fs.now
  looked : ∀ t p md, doomed cfg.serialLogRetentionSecs.toNat (Entry.own t s.trace) = some (p, md) →
    ∀ i, s.world.fs.tree.ino p = some i → (s.world.fs.tree.node i).mtime = md.mtime

section Runs

variable {cfg : Config} {fuel : ℕ} {retentionSecs : ℕ} {τ : Own} {p : Path} {md : Files.Meta}
variable {t : Tid} {k : Task} {o : Op} {q : Oracle o} {r : Resp o} {w w' : World}
variable {s : Daemon.State} {c₀ c : Pool}

theorem doomed_eq_some (h : doomed retentionSecs τ = some (p, md)) :
    ∃ σ, τ = ⟨.fs (.lstat p), .ok md⟩ :: σ ∧ p.dir = .logs ∧
      outlived md (lastNow σ) retentionSecs = true := by
  unfold doomed at h
  split at h
  · split at h <;> cases h
    rename_i h
    exact ⟨_, rfl, h⟩
  · cases h

theorem lastNow_of_step (h : step cfg.codec t o q w = some (r, w')) (hτ : lastNow τ ≤ w.fs.now) :
    lastNow (⟨o, r⟩ :: τ) ≤ w'.fs.now := by
  have hnow : w'.fs.now = w.fs.now := now_of_step h
  rw [hnow]
  cases o with
  | fs o =>
    cases o with
    | now =>
      obtain ⟨s, hs, -⟩ := step_fs h
      cases hs
      exact le_refl _
    | _ => exact hτ
  | _ => exact hτ

/-- The look sees the file there. -/
theorem looked_of_step (h : step cfg.codec t o q w = some (r, w'))
    (hd : doomed retentionSecs (⟨o, r⟩ :: τ) = some (p, md)) {i : Files.Ino}
    (hi : w'.fs.tree.ino p = some i) : (w'.fs.tree.node i).mtime = md.mtime := by
  obtain ⟨σ, heq, -, -⟩ := doomed_eq_some hd
  cases heq
  obtain ⟨s, hs, rfl⟩ := step_fs h
  obtain ⟨j, hj, rfl⟩ := Files.lstat_ok hs
  cases Files.change_of_step hs with
  | same _ ht =>
    rw [ht, hj] at hi
    cases hi
    rw [ht]
    rfl
  | create _ hq => cases hq
  | move hm => cases hm
  | overwrite _ hr => exact hr.elim

theorem Inv.call (hs : Inv cfg s) (h : step cfg.codec t o q s.world = some (r, w))
    (htidy : Tidy cfg k o) (hm : Undisturbed cfg s (.did t k o r s.world)) :
    Inv cfg (s.called (machine cfg fuel) t k o r w) := by
  refine ⟨fun u => ?_, fun u p md hd i hi => ?_⟩
  · by_cases hu : t = u
    · subst hu
      simp only [Shared.called, Entry.own_did]
      exact lastNow_of_step h (hs.past t)
    · simp only [Shared.called, Entry.own_did_of_ne hu, now_of_step h]
      exact hs.past u
  · by_cases hu : t = u
    · subst hu
      simp only [Shared.called, Entry.own_did] at hd
      exact looked_of_step h hd hi
    · simp only [Shared.called, Entry.own_did_of_ne hu] at hd
      obtain ⟨-, -, hp, -⟩ := doomed_eq_some hd
      cases o with
      | fs o =>
        obtain ⟨s', hs', rfl⟩ := step_fs h
        obtain ⟨hi', hmtime⟩ := mtime_of_step hs' htidy hp (hm u p md (Ne.symm hu) hd) hi
        exact hmtime.trans (hs.looked u p md hd i hi')
      | _ =>
        have hfs : w.fs = s.world.fs := fs_of_step h (by simp)
        simp only [Shared.called] at hi ⊢
        rw [hfs] at hi ⊢
        exact hs.looked u p md hd i hi

/-- The outside makes no log and changes none. -/
theorem Inv.env (hs : Inv cfg s) (e : Env) : Inv cfg { s with world := e.step s.world } := by
  refine ⟨fun u => (hs.past u).trans e.now_le_step, fun u p md hd i hi => ?_⟩
  obtain ⟨-, -, hp, -⟩ := doomed_eq_some hd
  have hi' : s.world.fs.tree.ino p = some i := by
    rw [← e.ino_step (by rw [hp]; decide)]
    exact hi
  show ((e.step s.world).fs.tree.node i).mtime = md.mtime
  rw [e.node_step (Files.Tree.lt_next_of_ino hi')]
  exact hs.looked u p md hd i hi'

/-- A log about to be unlinked has outlived the retention, for it had at
the reading of the clock. -/
theorem Inv.old (hs : Inv cfg s)
    (hd : doomed cfg.serialLogRetentionSecs.toNat (Entry.own t s.trace) = some (p, md))
    {i : Files.Ino} (hi : s.world.fs.tree.ino p = some i) :
    cfg.serialLogRetentionSecs.toNat <
      ageSecs s.world.fs.now (s.world.fs.tree.node i).mtime := by
  obtain ⟨σ, hσ, -, hold⟩ := doomed_eq_some hd
  have hclock : lastNow σ ≤ s.world.fs.now := by
    have := hs.past t
    rw [hσ] at this
    exact this
  simp only [outlived, Bool.and_eq_true, decide_eq_true_eq] at hold
  rw [hs.looked t p md hd i hi]
  exact hold.2.trans_le (ageSecs_mono md.mtime hclock)

theorem start_habits (h₀ : Daemon.Start cfg fuel c₀) : (habits cfg fuel).Start c₀ :=
  h₀.habits trivial trivial trivial

theorem inv_run (h₀ : Daemon.Start cfg fuel c₀)
    (hr : (machine cfg fuel).Run (Undisturbed cfg) c₀ c) : Inv cfg c.toShared := by
  induction hr with
  | start =>
    refine ⟨fun t => ?_, fun t p md hd => ?_⟩
    · rw [h₀.trace]
      exact Nat.zero_le _
    · rw [h₀.trace] at hd
      cases hd
  | @step c c' e hr hs hm ih =>
    have hr' := hr.step hs hm
    cases hs with
    | @call t k o f q r w hat hq hnew =>
      have hgood := Slots.good_line (w := c.world) h₀ hr' (List.suffix_refl _)
      exact ih.call hq hgood.tidy (hm _ rfl)
    | again => exact ih
    | exit => exact ⟨ih.past, ih.looked⟩
    | crash _ hw => cases hw
    | env hw =>
      cases hw
      exact ih.env _

/-- **Where no log is refreshed between the look at it and the unlink, the
prune unlinks none that has not outlived the retention**, however the
daemon's tasks interleave. -/
theorem prunesOld_of_undisturbed (h₀ : Daemon.Start cfg fuel c₀)
    (hr : (machine cfg fuel).Run (Undisturbed cfg) c₀ c) : PrunesOld cfg c.trace := by
  induction hr with
  | start =>
    intro t name w σ hsuf
    rw [h₀.trace] at hsuf
    cases List.eq_nil_of_suffix_nil hsuf
  | @step c c' e hr hs hm ih =>
    have hr' := hr.step hs hm
    cases hs with
    | @call t k o f q r w hat hq hnew =>
      intro u name w₁ σ hsuf
      rcases List.suffix_cons_iff.mp hsuf with heq | hsuf
      · cases heq
        have hq : step cfg.codec t (.fs (.removeFile ⟨.logs, name⟩)) q c.world = some (.ok (), w) :=
          hq
        obtain ⟨s, hs, -⟩ := step_fs hq
        obtain ⟨⟨i, hi⟩, -⟩ := Files.removeFile_ok hs
        obtain ⟨md, hd⟩ := sound_habits.line (start_habits h₀) hr' (List.suffix_refl _) rfl _ rfl rfl
        exact ⟨i, hi, (inv_run h₀ hr).old hd hi⟩
      · exact ih u name w₁ σ hsuf
    | again => exact ih
    | exit =>
      intro u name w₁ σ hsuf
      rcases List.suffix_cons_iff.mp hsuf with heq | hsuf
      · cases heq
      · exact ih u name w₁ σ hsuf
    | crash _ hw => cases hw
    | env => exact ih

end Runs

/-! ## A job that runs again -/

/-- The age of the log a prune's last line unlinks. -/
def unlinkedAge : Daemon.History → Option ℕ
  | .did _ .gc (.fs (.removeFile p)) (.ok ()) w :: _ =>
    if p.dir = .logs then
      (w.fs.tree.ino p).map fun i => ageSecs w.fs.now (w.fs.tree.node i).mtime
    else none
  | _ => none

theorem not_prunesOld_of_unlinkedAge {cfg : Config} {τ : Daemon.History} {n : ℕ}
    (h : unlinkedAge τ = some n) (hn : n ≤ cfg.serialLogRetentionSecs.toNat) : ¬ PrunesOld cfg τ := by
  intro hold
  unfold unlinkedAge at h
  split at h
  · rename_i t p w σ
    split at h
    · rename_i hp
      obtain ⟨dir, name⟩ := p
      obtain rfl : dir = .logs := hp
      obtain ⟨i, hi, hage⟩ := hold t name w σ (List.suffix_refl _)
      rw [hi] at h
      obtain rfl : ageSecs w.fs.now (w.fs.tree.node i).mtime = n := Option.some.inj h
      exact absurd hn (Nat.not_le.mpr hage)
    · cases h
  · cases h

/-- The sample host, where logs are kept five seconds. -/
def keepingConfig : Config := { sampleConfig with serialLogRetentionSecs := 5 }

/-- The job has run before, left a log, and was archived. -/
def samplePool : Pool where
  world := .sample [(serialPath (vmName 42), ⟨.regular, [1], 0⟩),
    (⟨.done, "42.job"⟩, ⟨.regular, [0], 0⟩)] 9000000000
  next := 3
  trace := []
  threads := Daemon.loops keepingConfig 2

theorem samplePool_start : Daemon.Start keepingConfig 2 samplePool :=
  ⟨rfl, rfl, rfl, rfl, rfl, rfl, rfl⟩

/-- `n` calls of thread `t`, none of which fails: the job is queued again,
and its guest runs out of memory. -/
def calls (t : Tid) (n : ℕ) (ended : Bool) (entry : Option String) :
    List (machine keepingConfig 2).Move :=
  .replicate n (.call t (Answers.oracle {
    fs := ⟨false, 0, entry.map fun name => ⟨name, .regular⟩⟩
    sched := ⟨"42.job", 3⟩
    lima := ⟨.ok ⟨true, ""⟩, true, ended, "x\n".toUTF8.toList, "", some "/vm",
      some "Out of memory: Killed process"⟩
    hub := ⟨none, true, "", [], none, none, [sampleStatus]⟩ }))

/-- The reconciler mints the job again and its worker runs to the guest's
end; the sweep looks at the log of the first run; the worker puts the log
of the second in its place; the sweep goes on. -/
def rerunSchedule : List (machine keepingConfig 2).Move :=
  calls reconciler 21 true none ++ calls 3 10 true none ++ calls 3 2 false none ++
    calls collector 5 true (some "42.job") ++ calls collector 3 true none ++
    calls collector 2 true (some (vmName 42 ++ ".serial.log")) ++ calls 3 4 false none ++
    calls collector 1 true none

theorem rerun_sample :
    ((machine keepingConfig 2).follow (fun _ _ => true) rerunSchedule samplePool).map
      (fun c => unlinkedAge c.trace) = some (some 0) := by
  decide +kernel

/-- **A log of this moment is unlinked**: the look was at that of an earlier
run. -/
theorem not_prunesOld_rerun :
    ∃ c, (machine keepingConfig 2).Run (fun _ _ => True) samplePool c ∧
      ¬ PrunesOld keepingConfig c.trace := by
  obtain ⟨c, hc, hage⟩ := Option.map_eq_some_iff.mp rerun_sample
  exact ⟨c, (Machine.run_of_follow hc).mono fun _ _ _ => trivial,
    not_prunesOld_of_unlinkedAge hage (Nat.zero_le _)⟩

/-- The reconciler mints the job again and its worker runs it; the sweep
looks at the log of the first run, the worker waits on, and the sweep
unlinks the log. -/
def pruneSchedule : List (machine keepingConfig 2).Move :=
  calls reconciler 21 true none ++ calls 3 9 false none ++
    calls collector 5 true (some "42.job") ++ calls collector 3 true none ++
    calls collector 2 true (some (vmName 42 ++ ".serial.log")) ++ calls 3 2 false none ++
    calls collector 1 true none

/-- The line is no call on files, or nobody else is about to unlink. -/
def sparesLogs (s : Daemon.State) (x : Line) : Bool :=
  (match x with
    | .did _ _ (.fs _) _ _ => false
    | _ => true) ||
  s.trace.all fun y => y.tid == x.tid ||
    (doomed keepingConfig.serialLogRetentionSecs.toNat (Entry.own y.tid s.trace)).isNone

theorem undisturbed_of_sparesLogs {s : Daemon.State} {x : Line} (h : sparesLogs s x = true) :
    Undisturbed keepingConfig s x := by
  intro t p md ht hd hrefresh
  rcases Bool.or_eq_true_iff.mp h with hcall | hall
  · unfold Refreshes at hrefresh
    split at hrefresh
    · cases hcall
    · cases hcall
    · cases hcall
    · exact hrefresh
  · by_cases hown : ∃ y ∈ s.trace, y.tid = t
    · obtain ⟨y, hy, rfl⟩ := hown
      rcases Bool.or_eq_true_iff.mp (List.all_eq_true.mp hall y hy) with hself | hnone
      · exact ht (eq_of_beq hself)
      · rw [hd] at hnone
        cases hnone
    · rw [Entry.own_eq_nil fun y hy hyt => hown ⟨y, hy, hyt⟩] at hd
      cases hd

theorem prune_sample :
    ((machine keepingConfig 2).follow sparesLogs pruneSchedule samplePool).map
      (fun c => (unlinkedAge c.trace, (c.threads 3).map fun k => k.1)) =
      some (some 9, some (.work "42.job" (buildEvent "o/r" sampleStatus))) := by
  decide +kernel

/-- The log of the first run is unlinked, and the second is under way. -/
theorem prunesOld_of_undisturbed_sample :
    ∃ c, (machine keepingConfig 2).Run (Undisturbed keepingConfig) samplePool c ∧
      unlinkedAge c.trace = some 9 ∧
      (c.threads 3).map Prod.fst = some (.work "42.job" (buildEvent "o/r" sampleStatus)) ∧
      PrunesOld keepingConfig c.trace := by
  obtain ⟨c, hc, hlast⟩ := Option.map_eq_some_iff.mp prune_sample
  obtain ⟨hage, hwork⟩ := Prod.mk.inj hlast
  have hr : (machine keepingConfig 2).Run (Undisturbed keepingConfig) samplePool c :=
    (Machine.run_of_follow hc).mono fun _ _ => undisturbed_of_sparesLogs
  exact ⟨c, hr, hage, hwork, prunesOld_of_undisturbed samplePool_start hr⟩

end SerialLogs

end GhaConsumer

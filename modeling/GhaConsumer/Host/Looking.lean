import GhaConsumer.Host.Scan

/-!
# Reading what cannot all be read

Files at rest of which some cannot be read: a call fails or does not, and
the same call does so each time (`Failing`). A program that only looks
leaves all as it is, and one that reads directories too comes to an end
(`exists_reading`).
-/

namespace GhaConsumer

open Interleave Alone

/-- Which calls on files fail. -/
abbrev Faults : Type := Files.Op Dir String → Bool

/-- These calls on files fail, and no others. -/
def Failing (F : Faults) : (o : Op) → Oracle o → Prop
  | .fs o, q => q.fails = F o
  | _, _ => True

/-- The calls that look at a file. -/
def Op.looks : Op → Prop
  | .fs (.tryExists _) | .fs (.openRead _) | .fs (.fstat _) | .fs (.lstat _) | .fs (.read ..)
  | .fs (.fileType _) => True
  | _ => False

/-- The calls that read: they look at a file, a directory or the clock. -/
def Op.readsOnly : Op → Prop
  | .fs (.openDir _) | .fs .nextEntry | .fs .now => True
  | o => o.looks

theorem Op.looks.readsOnly {o : Op} (h : o.looks) : o.readsOnly := by
  cases o with
  | fs o => cases o <;> trivial
  | _ => exact h

variable {C : Codec} {F : Faults} {ok : (o : Op) → Oracle o → Prop} {w w' s s' : World}
variable {α : Type} {m : Prog Resp α} {a : α}

/-! ## Looks -/

/-- Of a look only its answer remains, and the time it took. -/
theorem look_host {o : Files.Op Dir String} {r : Files.Resp o} (ho : Op.looks (.fs o))
    (h : hostStep C ok (.fs o) w r w') : ∃ (q : Files.Oracle String) (n : ℕ), ok (.fs o) q ∧
      Files.step 0 o q (w.later n).fs = some (r, (w.later n).fs) ∧ w' = w.later n := by
  obtain ⟨q, n, hq, hs⟩ := h
  obtain ⟨f, hstep, rfl⟩ := step_fs hs
  have hsame : f = (w.later n).fs := by
    have hstep : Files.step 0 o q (w.later n).fs = some (r, f) := hstep
    cases o with
    | tryExists | openRead | fstat | read | fileType =>
      simp only [Files.step, Option.some.injEq, Prod.mk.injEq] at hstep
      exact hstep.2.symm
    | lstat =>
      simp only [Files.step] at hstep
      split at hstep
      · cases hstep
        rfl
      · split at hstep <;> cases hstep <;> rfl
    | _ => exact ho.elim
  subst hsame
  exact ⟨q, n, hq, hstep, rfl⟩

/-- What each look answers, where the chosen calls fail. -/
theorem openRead_failing {p : Path} {r : Except Files.Errno Files.Ino}
    (h : hostStep C (Failing F) (.fs (.openRead p)) w r w') :
    (∃ n, w' = w.later n) ∧
      ∀ i, r = .ok i ↔ F (.openRead p) = false ∧ Files.opened w.fs.tree p = .ok i := by
  obtain ⟨q, n, hq, hs, rfl⟩ := look_host (o := .openRead p) trivial h
  have hq : q.fails = F (.openRead p) := hq
  refine ⟨⟨n, rfl⟩, fun i => ?_⟩
  simp only [Files.step, hq, later_tree, Option.some.injEq, Prod.mk.injEq] at hs
  rw [← hs.1]
  cases F (.openRead p) <;> simp

theorem fstat_failing {i : Files.Ino} {r : Except Files.Errno Files.Meta}
    (h : hostStep C (Failing F) (.fs (.fstat i)) w r w') : (∃ n, w' = w.later n) ∧
      r = if F (.fstat i) then .error .other else .ok (w.fs.tree.node i).meta := by
  obtain ⟨q, n, hq, hs, rfl⟩ := look_host (o := .fstat i) trivial h
  have hq : q.fails = F (.fstat i) := hq
  simp only [Files.step, hq, later_tree, Option.some.injEq, Prod.mk.injEq] at hs
  exact ⟨⟨n, rfl⟩, hs.1.symm⟩

theorem read_failing {i : Files.Ino} {limit : ℕ} {r : Except Files.Errno Files.Bytes}
    (h : hostStep C (Failing F) (.fs (.read i limit)) w r w') : (∃ n, w' = w.later n) ∧
      r = if F (.read i limit) then .error .other else .ok ((w.fs.tree.node i).data.take limit) := by
  obtain ⟨q, n, hq, hs, rfl⟩ := look_host (o := .read i limit) trivial h
  have hq : q.fails = F (.read i limit) := hq
  simp only [Files.step, hq, later_tree, Option.some.injEq, Prod.mk.injEq] at hs
  exact ⟨⟨n, rfl⟩, hs.1.symm⟩

theorem fileType_failing {e : Files.DirEntry String} {r : Except Files.Errno Files.Kind}
    (h : hostStep C (Failing F) (.fs (.fileType e)) w r w') : (∃ n, w' = w.later n) ∧
      r = if F (.fileType e) then .error .other else .ok e.kind := by
  obtain ⟨q, n, hq, hs, rfl⟩ := look_host (o := .fileType e) trivial h
  have hq : q.fails = F (.fileType e) := hq
  simp only [Files.step, hq, Option.some.injEq, Prod.mk.injEq] at hs
  exact ⟨⟨n, rfl⟩, hs.1.symm⟩

/-- Looks leave nothing but the time they took. -/
theorem ends_later (hm : m.Only Op.looks) (h : Ends (hostStep C ok) m w a w') :
    ∃ n, w' = w.later n := by
  refine h.only hm (B := fun s => ∃ n, s = w.later n) (fun o r s s' ho hs hB => ?_) ⟨0, rfl⟩
  obtain ⟨n, rfl⟩ := hB
  cases o with
  | fs o =>
    obtain ⟨-, n', -, -, rfl⟩ := look_host ho hs
    exact ⟨n + n', later_later n n'⟩
  | _ => exact ho.elim

/-! ## Reads -/

/-- What the directory read must still return, it may return. -/
def ScanOk (s : World) : Prop :=
  ∀ sc, s.fs.scan 0 = some sc → ∀ n ∈ sc.owed, n ∈ sc.offered.map (·.name)

theorem scanOk_openDir {d : Dir} {r : Except Files.Errno Unit}
    (h : hostStep C ok (.fs (.openDir d)) s r s') : ScanOk s' := by
  obtain ⟨q, now, f, -, -, hs, rfl⟩ := fs_host h
  simp only [Files.step] at hs
  intro sc hsc n hn
  split at hs <;> cases hs
  · have hnone : none = some sc := Files.State.scan_setScan_self.symm.trans hsc
    cases hnone
  · have hopened := Option.some.inj (Files.State.scan_setScan_self.symm.trans hsc)
    rw [← hopened] at hn ⊢
    exact hn

theorem scanOk_nextEntry {r : Except Files.Errno (Option (Files.DirEntry String))}
    (h : hostStep C ok (.fs .nextEntry) s r s') (hs : ScanOk s) : ScanOk s' := by
  obtain ⟨q, now, f, -, -, hstep, rfl⟩ := fs_host h
  simp only [Files.step] at hstep
  split at hstep
  · cases hstep
    exact hs
  · rename_i sc hsc
    split at hstep
    · cases hstep
      exact hs
    · split at hstep <;> split at hstep <;> cases hstep
      · exact hs
      · rename_i e _ he
        intro sc' hsc' n hn
        rw [← Option.some.inj (Files.State.scan_setScan_self.symm.trans hsc')] at hn ⊢
        -- an entry still owed is not the one returned
        obtain ⟨hn, hne⟩ := List.mem_filter.mp hn
        obtain ⟨e', he', rfl⟩ := List.mem_map.mp (hs sc hsc n hn)
        have hne : e'.name ≠ e.name := of_decide_eq_true hne
        exact List.mem_map_of_mem
          ((List.mem_erase_of_ne fun heq => hne (congrArg _ heq)).mpr he')

theorem ReadUpTo.scanOk {d : Dir} {seen : List String} (h : ReadUpTo w d seen s) : ScanOk s := by
  intro sc hsc n hn
  obtain ⟨sc', hsc', -, howed, -⟩ := h.rest
  obtain rfl : sc = sc' := Option.some.inj (hsc.symm.trans hsc')
  exact (howed n).mp hn

theorem openDir_error {d : Dir} {r : Except Files.Errno Unit} (hF : F (.openDir d) = true)
    (h : hostStep C (Failing F) (.fs (.openDir d)) s r s') : r = .error .other := by
  obtain ⟨q, now, f, hq, -, hs, rfl⟩ := fs_host h
  have hq : q.fails = true := hq.trans hF
  rw [Files.step, if_pos hq] at hs
  cases hs
  rfl

theorem nextEntry_error {r : Except Files.Errno (Option (Files.DirEntry String))}
    (hF : F .nextEntry = true) (h : hostStep C (Failing F) (.fs .nextEntry) s r s') :
    r = .error .other := by
  obtain ⟨q, now, f, hq, -, hs, rfl⟩ := fs_host h
  have hq : q.fails = true := hq.trans hF
  simp only [Files.step, hq, if_true] at hs
  split at hs <;> cases hs <;> rfl

/-- A read changes no file. -/
theorem read_tree {o : Op} {r : Resp o} (ho : o.readsOnly) (h : hostStep C ok o s r s') :
    s'.fs.tree = s.fs.tree := by
  cases o with
  | fs o =>
    by_cases hlook : Op.looks (.fs o)
    · obtain ⟨-, n, -, -, rfl⟩ := look_host hlook h
      rfl
    obtain ⟨q, now, f, -, -, hstep, rfl⟩ := fs_host h
    cases o with
    | openDir d =>
      simp only [Files.step] at hstep
      split at hstep <;> cases hstep <;> rfl
    | nextEntry =>
      simp only [Files.step] at hstep
      split at hstep
      · cases hstep
        rfl
      · split at hstep
        · cases hstep
          rfl
        · split at hstep <;> split at hstep <;> cases hstep <;> rfl
    | now =>
      cases hstep
      rfl
    | _ => exact absurd ho hlook
  | _ => exact ho.elim

/-- A read leaves a directory read in order. -/
theorem read_scanOk {o : Op} {r : Resp o} (ho : o.readsOnly) (h : hostStep C ok o s r s')
    (hs : ScanOk s) : ScanOk s' := by
  cases o with
  | fs o =>
    by_cases hlook : Op.looks (.fs o)
    · obtain ⟨-, n, -, -, rfl⟩ := look_host hlook h
      exact hs
    cases o with
    | openDir d => exact scanOk_openDir h
    | nextEntry => exact scanOk_nextEntry h hs
    | now =>
      obtain ⟨q, now, f, -, -, hstep, rfl⟩ := fs_host h
      cases hstep
      exact hs
    | _ => exact absurd ho hlook
  | _ => exact ho.elim

/-- Every read is answered. -/
theorem exists_read {o : Op} (ho : o.readsOnly) (hs : o = .fs .nextEntry → ScanOk s) :
    ∃ r s', hostStep C (Failing F) o s r s' := by
  cases o with
  | fs o =>
    have hans : ∃ e x, Files.step 0 o ⟨F o, 0, e⟩ (s.later 0).fs = some x := by
      cases o with
      | lstat =>
        refine ⟨none, ?_⟩
        simp only [Files.step]
        split
        · exact ⟨_, rfl⟩
        · split <;> exact ⟨_, rfl⟩
      | openDir d =>
        refine ⟨none, ?_⟩
        simp only [Files.step]
        split <;> exact ⟨_, rfl⟩
      | nextEntry =>
        have hscan : (s.later 0).fs.scan 0 = s.fs.scan 0 := rfl
        simp only [Files.step, hscan]
        cases hsc : s.fs.scan 0 with
        | none => exact ⟨none, _, rfl⟩
        | some sc =>
          by_cases hfails : F .nextEntry = true
          · simp only [if_pos hfails]
            exact ⟨none, _, rfl⟩
          · simp only [if_neg hfails]
            cases howed : sc.owed with
            | nil => exact ⟨none, _, if_pos rfl⟩
            | cons n owed =>
              -- what is owed is offered
              obtain ⟨e, he, -⟩ := List.mem_map.mp (hs rfl sc hsc n (by simp [howed]))
              exact ⟨some e, _, if_pos he⟩
      | tryExists | openRead | fstat | read | fileType | now => exact ⟨none, _, rfl⟩
      | _ => exact ho.elim
    obtain ⟨e, ⟨r, f⟩, hstep⟩ := hans
    refine ⟨r, { s.later 0 with fs := f }, ⟨F o, 0, e⟩, 0, rfl, ?_⟩
    show (Files.step 0 o ⟨F o, 0, e⟩ (s.later 0).fs).map _ = _
    rw [hstep]
    rfl
  | _ => exact ho.elim

/-- **A program that reads comes to an end**, and leaves the files as they
are. -/
theorem exists_reading (hm : m.Only Op.readsOnly) (hs : ScanOk s) :
    ∃ a s', Ends (hostStep C (Failing F)) m s a s' ∧ ScanOk s' ∧ s'.fs.tree = s.fs.tree := by
  refine exists_ends_inv (I := fun s₁ => ScanOk s₁ ∧ s₁.fs.tree = s.fs.tree) hm
    (fun o s₁ ho hI => exists_read ho fun _ => hI.1) (fun o s₁ r s₂ ho hI h => ?_) ⟨hs, rfl⟩
  exact ⟨read_scanOk ho h hI.1, (read_tree ho h).trans hI.2⟩

theorem reading_tree (hm : m.Only Op.readsOnly) (h : Ends (hostStep C ok) m s a s') :
    s'.fs.tree = s.fs.tree :=
  h.only hm (B := fun s₁ => s₁.fs.tree = s.fs.tree)
    (fun _ _ _ _ ho hstep hB => (read_tree ho hstep).trans hB) rfl

theorem reading_scanOk (hm : m.Only Op.readsOnly) (h : Ends (hostStep C ok) m s a s')
    (hs : ScanOk s) : ScanOk s' :=
  h.only hm (B := ScanOk) (fun _ _ _ _ ho hstep hB => read_scanOk ho hstep hB) hs

end GhaConsumer

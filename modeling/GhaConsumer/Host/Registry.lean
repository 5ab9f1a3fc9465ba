import GhaConsumer.Host.World

/-!
# VMs and runners, step by step

A VM comes and goes by the commands that name it. A runner is registered
under the next id and under no other, and leaves by a deletion that names
it; so whatever an id has once named, it names nothing else later.
-/

namespace GhaConsumer

/-! ## VMs -/

namespace Lima

/-- No command but a start or a delete of the name touches a VM. -/
theorem mem_step {C : Codec} {o : Op} {q : Oracle} {r : Resp o} {s s' : State} {v : Vm}
    (h : step C o q s = some (r, s')) (hstart : o ≠ .start v.name) (hdelete : o ≠ .delete v.name) :
    v ∈ s'.vms ↔ v ∈ s.vms := by
  cases o with
  | start name =>
    have hname : v ≠ ⟨s.nextId, name, q.dir, q.text⟩ := by
      rintro rfl
      exact hstart rfl
    simp only [step] at h
    split at h
    · split at h <;> cases h
      exact Iff.rfl
    · split at h <;> cases h
      · exact List.mem_cons.trans (or_iff_right hname)
      · exact Iff.rfl
  | delete name =>
    have hname : v.name ≠ name := by
      rintro rfl
      exact hdelete rfl
    simp only [step] at h
    split at h <;> cases h
    · exact List.mem_filter.trans (and_iff_left (decide_eq_true hname))
    · exact Iff.rfl
  | list =>
    simp only [step] at h
    split at h
    · cases h
      exact Iff.rfl
    · split at h <;> cases h
      exact Iff.rfl
  | readYaml dir =>
    simp only [step] at h
    split at h <;> cases h <;> exact Iff.rfl
  | _ =>
    simp only [step, Option.some.injEq, Prod.mk.injEq] at h
    rw [h.2]

end Lima

/-! ## Runners -/

namespace Hub

variable {o : Op} {q : Oracle} {r : Resp o} {s s' : State} {g : Registration}
variable {owner repo name : String} {labels : List String} {jit : JitConfigResp} {id : ℕ}

@[simp] theorem mem_register : g ∈ (s.register owner repo name).runners ↔
    g = ⟨s.nextId, name, owner, repo⟩ ∨ g ∈ s.runners := List.mem_cons

@[simp] theorem mem_keep {keep : Registration → Bool} :
    g ∈ (s.keep keep).runners ↔ g ∈ s.runners ∧ keep g = true := List.mem_filter

/-- A runner there after a call was there before, or has just been
registered under the next id. -/
theorem mem_of_step (h : step o q s = some (r, s')) (hg : g ∈ s'.runners) :
    g ∈ s.runners ∨ ∃ labels, o = .generateJitConfig g.owner g.repo g.name labels ∧ g.id = s.nextId := by
  have hregister : ∀ {owner repo name : String} {labels : List String},
      g ∈ (s.register owner repo name).runners → g ∈ s.runners ∨
        ∃ labels', Op.generateJitConfig owner repo name labels =
          .generateJitConfig g.owner g.repo g.name labels' ∧ g.id = s.nextId := by
    intro owner repo name labels hg
    rcases mem_register.mp hg with rfl | hg
    · exact .inr ⟨labels, rfl, rfl⟩
    · exact .inl hg
  cases o with
  | generateJitConfig owner repo name labels =>
    simp only [step] at h
    split at h <;> cases h
    · exact hregister hg
    · split at hg
      · exact hregister hg
      · exact .inl hg
  | deleteRunner owner repo id =>
    simp only [step] at h
    split at h <;> cases h
    · exact .inl (mem_keep.mp hg).1
    · split at hg
      · exact .inl (mem_keep.mp hg).1
      · exact .inl hg
  | listRunners owner repo pre =>
    simp only [step] at h
    split at h
    · cases h
      exact .inl hg
    · split at h <;> cases h
      exact .inl hg
  | runnerStatus | jobStatus | listQueuedJobs =>
    simp only [step, Option.some.injEq, Prod.mk.injEq] at h
    rw [← h.2] at hg
    exact .inl hg

/-- A runner there before a call is there after it, unless the call asks
for its deletion. -/
theorem mem_step (h : step o q s = some (r, s')) (hg : g ∈ s.runners)
    (hdel : o ≠ .deleteRunner g.owner g.repo g.id) : g ∈ s'.runners := by
  cases o with
  | generateJitConfig owner repo name labels =>
    simp only [step] at h
    split at h <;> cases h
    · exact mem_register.mpr (.inr hg)
    · split
      · exact mem_register.mpr (.inr hg)
      · exact hg
  | deleteRunner owner repo id =>
    have hkeep : g ∈ (s.keep fun g => !(g.id = id && g.owner = owner && g.repo = repo)).runners := by
      refine mem_keep.mpr ⟨hg, ?_⟩
      by_contra hnot
      simp only [Bool.not_eq_true, Bool.not_eq_false', Bool.and_eq_true, decide_eq_true_eq] at hnot
      obtain ⟨⟨rfl, rfl⟩, rfl⟩ := hnot
      exact hdel rfl
    simp only [step] at h
    split at h <;> cases h
    · exact hkeep
    · split
      · exact hkeep
      · exact hg
  | listRunners owner repo pre =>
    simp only [step] at h
    split at h
    · cases h
      exact hg
    · split at h <;> cases h
      exact hg
  | runnerStatus | jobStatus | listQueuedJobs =>
    simp only [step, Option.some.injEq, Prod.mk.injEq] at h
    rw [← h.2]
    exact hg

/-- What is answered to have been minted is registered under the next id. -/
theorem minted_of_step
    (h : step (.generateJitConfig owner repo name labels) q s = some (.ok jit, s')) :
    jit.runnerId = s.nextId ∧ s' = s.register owner repo name := by
  simp only [step] at h
  split at h <;> cases h
  exact ⟨rfl, rfl⟩

/-- What is answered to have been deleted is gone. -/
theorem deleted_of_step (h : step (.deleteRunner owner repo id) q s = some (.ok (), s')) :
    ∀ g ∈ s'.runners, ¬ (g.id = id ∧ g.owner = owner ∧ g.repo = repo) := by
  simp only [step] at h
  split at h <;> cases h
  rintro g hg ⟨rfl, rfl, rfl⟩
  simp at hg

/-- A runner listed is registered so. -/
theorem listed_of_step {pre : String} {runners : List Runner}
    (h : step (.listRunners owner repo pre) q s = some (.ok runners, s')) :
    ∀ r ∈ runners, (⟨r.id, r.name, owner, repo⟩ : Registration) ∈ s.runners := by
  simp only [step] at h
  split at h
  · cases h
  · split at h <;> cases h
    rename_i hall
    intro r hr
    have hknown := List.all_eq_true.mp hall r hr
    obtain ⟨⟨id, name, owner', repo'⟩, hg, hid⟩ :=
      List.any_eq_true.mp (Bool.and_eq_true_iff.mp hknown).1
    simp only [Bool.and_eq_true, decide_eq_true_eq] at hid
    obtain ⟨⟨⟨rfl, rfl⟩, rfl⟩, rfl⟩ := hid
    exact hg

/-- An id names one runner. -/
theorem State.eq_of_id {g' : Registration} (hg : g ∈ s.runners) (hg' : g' ∈ s.runners)
    (h : g.id = g'.id) : g = g' :=
  List.inj_on_of_nodup_map s.unique hg hg' h

/-! ## What an id names -/

/-- The id has been given, to that runner if it is still there. -/
structure State.Names (s : State) (g : Registration) : Prop where
  given : g.id < s.nextId
  only : ∀ g' ∈ s.runners, g'.id = g.id → g' = g

theorem State.names_of_mem (hg : g ∈ s.runners) : s.Names g where
  given := s.old g hg
  only _ hg' hid := s.eq_of_id hg' hg hid

theorem State.Names.register (h : s.Names g) : (s.register owner repo name).Names g where
  given := h.given.trans (Nat.lt_succ_self _)
  only g' hg' hid := by
    rcases mem_register.mp hg' with rfl | hg'
    · exact absurd h.given (by rw [← hid]; exact lt_irrefl _)
    · exact h.only g' hg' hid

theorem State.Names.keep {keep : Registration → Bool} (h : s.Names g) : (s.keep keep).Names g where
  given := h.given
  only g' hg' hid := h.only g' (mem_keep.mp hg').1 hid

/-- An id keeps its name. -/
theorem State.Names.step (h : s.Names g) (hs : Hub.step o q s = some (r, s')) : s'.Names g where
  given := h.given.trans_le (nextId_le_of_step hs)
  only g' hg' hid := by
    rcases mem_of_step hs hg' with hg' | ⟨labels, -, hnew⟩
    · exact h.only g' hg' hid
    · exact absurd h.given (by rw [← hid, hnew]; exact lt_irrefl _)

/-- The id is free: it was given, and no runner has it any more. -/
structure State.Gone (s : State) (id : ℕ) : Prop where
  given : id < s.nextId
  none : ∀ g ∈ s.runners, g.id ≠ id

theorem State.Gone.register (h : s.Gone id) : (s.register owner repo name).Gone id where
  given := h.given.trans (Nat.lt_succ_self _)
  none g hg hid := by
    rcases mem_register.mp hg with rfl | hg
    · exact absurd h.given (by rw [← hid]; exact lt_irrefl _)
    · exact h.none g hg hid

theorem State.Gone.keep {keep : Registration → Bool} (h : s.Gone id) : (s.keep keep).Gone id where
  given := h.given
  none g hg := h.none g (mem_keep.mp hg).1

/-- A runner gone stays gone. -/
theorem State.Gone.step (h : s.Gone id) (hs : Hub.step o q s = some (r, s')) : s'.Gone id where
  given := h.given.trans_le (nextId_le_of_step hs)
  none g hg hid := by
    rcases mem_of_step hs hg with hg | ⟨labels, -, hnew⟩
    · exact h.none g hg hid
    · exact absurd h.given (by rw [← hid, hnew]; exact lt_irrefl _)

end Hub

end GhaConsumer

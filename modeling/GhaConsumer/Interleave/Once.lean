import GhaConsumer.Interleave.Pool

/-!
# Pools of tasks that run once

Where no body returns another task, a thread is at one task for as long
as it lasts: all its lines are at that task (`Machine.Once.same`).
-/

namespace Interleave

variable {Op : Type} {Resp : Op → Type} {Task World : Type}

namespace Entry

/-- The task the line was added at. -/
def task : Entry Resp Task World → Task
  | did _ k .. => k
  | ended _ k _ => k

end Entry

namespace Machine

/-- No body returns another task. -/
def Once (M : Machine Resp Task World) : Prop := ∀ k, (M.body k).Returns (· = none)

/-- A thread's lines are at its task. -/
structure AtOne (c : Config Resp Task World) : Prop where
  old : ∀ e ∈ c.trace, e.tid < c.next
  thread : ∀ t k p, c.threads t = some (k, p) → t < c.next ∧ p.Returns (· = none) ∧
    ∀ e ∈ c.trace, e.tid = t → e.task = k
  same : ∀ e ∈ c.trace, ∀ e' ∈ c.trace, e.tid = e'.tid → e.task = e'.task

variable {M : Machine Resp Task World} {c₀ c c' : Config Resp Task World}
variable {Meets : Shared Resp Task World → Entry Resp Task World → Prop}

/-- One line more, at the task of its thread. -/
theorem AtOne.line (h : AtOne c) {x : Entry Resp Task World} {p : Prog Resp (Option Task)}
    (hat : c.threads x.tid = some (x.task, p)) :
    ∀ e ∈ x :: c.trace, ∀ e' ∈ x :: c.trace, e.tid = e'.tid → e.task = e'.task := by
  have hnow := (h.thread _ _ _ hat).2.2
  intro e he e' he' htid
  rcases List.mem_cons.mp he with rfl | hmem
  · rcases List.mem_cons.mp he' with rfl | hmem'
    · rfl
    · exact (hnow e' hmem' htid.symm).symm
  · rcases List.mem_cons.mp he' with rfl | hmem'
    · exact hnow e hmem htid
    · exact h.same e hmem e' hmem' htid

/-- A thread that ends leaves the others at theirs. -/
theorem AtOne.drop (h : AtOne c) {t : Tid} {k : Task} {p : Prog Resp (Option Task)} {w : World}
    (hat : c.threads t = some (k, p)) :
    AtOne { toShared := c.toShared.ended t k w, threads := Function.update c.threads t none } := by
  refine ⟨List.forall_mem_cons.mpr ⟨(h.thread t k _ hat).1, h.old⟩, fun u k' p' hu => ?_,
    h.line (x := .ended t k c.world) hat⟩
  rcases eq_or_ne u t with rfl | hut
  · simp only [Function.update_self] at hu
    cases hu
  · simp only [Function.update_of_ne hut] at hu
    obtain ⟨hlt, hret, hnow⟩ := h.thread u k' p' hu
    refine ⟨hlt, hret, List.forall_mem_cons.mpr ⟨fun heq => ?_, hnow⟩⟩
    exact absurd heq.symm hut

theorem AtOne.step (hM : M.Once) (h : AtOne c) {e : Option (Entry Resp Task World)}
    (hs : M.Step c e c') : AtOne c' := by
  cases hs with
  | @call t k o f q r w hat hq hnew =>
    obtain ⟨hlt, hret, hnow⟩ := h.thread t k _ hat
    have hnext := c.toShared.next_le_called (t := t) (k := k) (w := w) hnew
    refine ⟨List.forall_mem_cons.mpr ⟨Nat.lt_of_lt_of_le hlt hnext, fun e he =>
      Nat.lt_of_lt_of_le (h.old e he) hnext⟩, fun u k' p hu => ?_,
      h.line (x := .did t k o r c.world) hat⟩
    rcases M.threadsCalled_cases hu with ⟨hf, rfl⟩ | ⟨rfl, rfl, rfl⟩ | ⟨hut, hu⟩
    · have hle := hnew u k' hf
      refine ⟨Shared.lt_next_of_forks hf, hM k', List.forall_mem_cons.mpr ⟨fun heq => ?_,
        fun e he heq => ?_⟩⟩
      · obtain rfl : t = u := heq
        exact absurd hle (Nat.not_le.mpr hlt)
      · exact absurd (heq ▸ h.old e he) (Nat.not_lt.mpr hle)
    · exact ⟨Nat.lt_of_lt_of_le hlt hnext, hret r, List.forall_mem_cons.mpr ⟨fun _ => rfl, hnow⟩⟩
    · obtain ⟨hlt', hret', hnow'⟩ := h.thread u k' p hu
      refine ⟨Nat.lt_of_lt_of_le hlt' hnext, hret', List.forall_mem_cons.mpr ⟨fun heq => ?_, hnow'⟩⟩
      exact absurd heq.symm hut
  | again hat =>
    cases (h.thread _ _ _ hat).2.1
  | exit hat => exact h.drop hat
  | crash hat hw => exact h.drop hat
  | env hw => exact ⟨h.old, h.thread, h.same⟩

/-- **Every thread of every run is at one task.** -/
theorem Once.same (hM : M.Once) (h₀ : c₀.trace = [])
    (hfresh : ∀ t k p, c₀.threads t = some (k, p) → t < c₀.next ∧ p = M.body k)
    (hr : M.Run Meets c₀ c) : AtOne c := by
  induction hr with
  | start =>
    refine ⟨fun e he => ?_, fun t k p ht => ?_, fun e he => ?_⟩
    · rw [h₀] at he
      cases he
    · obtain ⟨hlt, rfl⟩ := hfresh t k p ht
      refine ⟨hlt, hM k, fun e he => ?_⟩
      rw [h₀] at he
      cases he
    · rw [h₀] at he
      cases he
  | step _ hs _ ih => exact ih.step hM hs

end Machine

end Interleave

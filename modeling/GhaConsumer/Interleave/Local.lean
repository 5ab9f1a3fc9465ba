import GhaConsumer.Interleave.Pool
import GhaConsumer.Interleave.Trace

/-!
# What a thread knows of itself

A thread's own calls, picked out of the history of a pool, are a history
of its programs one after the other. What every task makes sure of given
the thread's own history (`Habits`) therefore holds of every line of
every run, whatever the others do (`Habits.Sound.line`).
-/

namespace Interleave

open Trace

variable {Op : Type} {Resp : Op → Type} {Task World : Type}

/-! ## Own calls -/

namespace Entry

/-- The calls of thread `t`. -/
def own (t : Tid) : List (Entry Resp Task World) → History Resp
  | [] => []
  | .did u _ o r _ :: τ => if u = t then ⟨o, r⟩ :: own t τ else own t τ
  | .ended .. :: τ => own t τ

variable {t u : Tid} {k : Task} {o : Op} {r : Resp o} {w : World}
variable {τ σ : List (Entry Resp Task World)}

@[simp] theorem own_nil : own t ([] : List (Entry Resp Task World)) = [] := rfl

@[simp] theorem own_did : own t (.did t k o r w :: τ) = ⟨o, r⟩ :: own t τ := if_pos rfl

theorem own_did_of_ne (h : u ≠ t) : own t (.did u k o r w :: τ) = own t τ := if_neg h

@[simp] theorem own_ended : own t (.ended u k w :: τ) = own t τ := rfl

theorem own_append : own t (σ ++ τ) = own t σ ++ own t τ := by
  induction σ with
  | nil => rfl
  | cons e σ ih =>
    cases e with
    | did u k o r w =>
      by_cases hu : u = t
      · subst hu
        rw [List.cons_append, own_did, own_did, ih, List.cons_append]
      · rw [List.cons_append, own_did_of_ne hu, own_did_of_ne hu, ih]
    | ended u k w => exact ih

/-- A thread without lines has no calls. -/
theorem own_eq_nil (h : ∀ e ∈ τ, e.tid ≠ t) : own t τ = [] := by
  induction τ with
  | nil => rfl
  | cons e τ ih =>
    have hτ := ih fun e' he' => h e' (List.mem_cons_of_mem _ he')
    cases e with
    | did u k o r w => exact (own_did_of_ne (h (.did u k o r w) List.mem_cons_self)).trans hτ
    | ended u k w => exact hτ

/-- Calls up to a point are among the calls. -/
theorem own_suffix (h : σ <:+ τ) : own t σ <:+ own t τ := by
  obtain ⟨ρ, rfl⟩ := h
  rw [own_append]
  exact List.suffix_append _ _

/-- A line of a thread is a call of it. -/
theorem mem_own (h : .did t k o r w ∈ τ) : ⟨o, r⟩ ∈ own t τ := by
  obtain ⟨σ, ρ, rfl⟩ := List.append_of_mem h
  rw [own_append, own_did]
  exact List.mem_append_right _ List.mem_cons_self

/-- A call of a thread has its line. -/
theorem exists_of_own {e : Event Resp} (h : e ∈ own t τ) :
    ∃ k w σ, .did t k e.1 e.2 w :: σ <:+ τ := by
  induction τ with
  | nil => cases h
  | cons x τ ih =>
    have htail : e ∈ own t τ → ∃ k w σ, .did t k e.1 e.2 w :: σ <:+ x :: τ := by
      intro h
      obtain ⟨k, w, σ, hsuf⟩ := ih h
      exact ⟨k, w, σ, hsuf.trans (List.suffix_cons _ _)⟩
    cases x with
    | ended u k w => exact htail h
    | did u k o r w =>
      by_cases hu : u = t
      · subst hu
        rw [own_did] at h
        rcases List.mem_cons.mp h with rfl | h
        · exact ⟨k, w, τ, List.suffix_refl _⟩
        · exact htail h
      · rw [own_did_of_ne hu] at h
        exact htail h

/-- A call of a thread, with its calls before it, has its line. -/
theorem exists_of_own_suffix {e : Event Resp} {σ : History Resp} (h : e :: σ <:+ own t τ) :
    ∃ k w τ', .did t k e.1 e.2 w :: τ' <:+ τ ∧ own t τ' = σ := by
  induction τ with
  | nil => exact absurd (List.eq_nil_of_suffix_nil h) (by simp)
  | cons x τ ih =>
    have htail : e :: σ <:+ own t τ →
        ∃ k w τ', .did t k e.1 e.2 w :: τ' <:+ x :: τ ∧ own t τ' = σ := by
      intro h
      obtain ⟨k, w, τ', hsuf, hown⟩ := ih h
      exact ⟨k, w, τ', hsuf.trans (List.suffix_cons _ _), hown⟩
    cases x with
    | ended u k w => exact htail h
    | did u k o r w =>
      by_cases hu : u = t
      · subst hu
        rw [own_did] at h
        rcases List.suffix_cons_iff.mp h with heq | h
        · cases heq
          exact ⟨k, w, τ, List.suffix_refl _, rfl⟩
        · exact htail h
      · rw [own_did_of_ne hu] at h
        exact htail h

/-! ## Everybody's calls -/

/-- The calls of all threads. -/
def calls : List (Entry Resp Task World) → History Resp
  | [] => []
  | .did _ _ o r _ :: τ => ⟨o, r⟩ :: calls τ
  | .ended .. :: τ => calls τ

@[simp] theorem calls_nil : calls ([] : List (Entry Resp Task World)) = [] := rfl

@[simp] theorem calls_did : calls (.did t k o r w :: τ) = ⟨o, r⟩ :: calls τ := rfl

@[simp] theorem calls_ended : calls (.ended t k w :: τ) = calls τ := rfl

theorem calls_suffix (h : σ <:+ τ) : calls σ <:+ calls τ := by
  induction τ with
  | nil => rw [List.eq_nil_of_suffix_nil h]
  | cons e τ ih =>
    rcases List.suffix_cons_iff.mp h with rfl | hτ
    · exact List.suffix_refl _
    · cases e with
      | did u k o r w => exact (ih hτ).trans (List.suffix_cons _ _)
      | ended u k w => exact ih hτ

theorem mem_calls_of_own {e : Event Resp} (h : e ∈ own t τ) : e ∈ calls τ := by
  obtain ⟨k, w, σ, hsuf⟩ := exists_of_own h
  exact (calls_suffix hsuf).subset List.mem_cons_self

end Entry

open Entry

/-! ## Habits -/

/-- What a thread makes sure of at each of its calls, and what it counts
on at the start of a task, given its own calls so far. -/
structure Habits (M : Machine Resp Task World) where
  good : Tid → Task → History Resp → Event Resp → Prop
  pre : Tid → Task → History Resp → Prop

namespace Habits

variable {M : Machine Resp Task World} (H : Habits M)

/-- A body returns the task it has prepared. -/
def post (t : Tid) : Option Task → History Resp → Prop
  | some k => H.pre t k
  | none => fun _ => True

/-- The obligations: every body keeps the habits, and a thread starts
with what its task counts on. -/
structure Sound : Prop where
  body : ∀ t k, Triple (H.good t k) (H.pre t k) (M.body k) (H.post t)
  forks : ∀ {o : Op} {r : Resp o} {u k}, M.forks o r = some (u, k) → H.pre u k []

/-- Nothing has happened yet, and every thread is at the start of its
task. -/
structure Start (c : Config Resp Task World) : Prop where
  trace : c.trace = []
  fresh : ∀ t k p, c.threads t = some (k, p) → t < c.next ∧ p = M.body k ∧ H.pre t k []

/-- The pool keeps the habits. -/
structure Holds (c : Config Resp Task World) : Prop where
  old : ∀ e ∈ c.trace, e.tid < c.next
  safe : ∀ t k p, c.threads t = some (k, p) →
    t < c.next ∧ Safe (H.good t k) (H.post t) p (own t c.trace)
  line : ∀ t k o r w τ, .did t k o r w :: τ <:+ c.trace → H.good t k (own t τ) ⟨o, r⟩

variable {H} {c₀ c c' : Config Resp Task World} {e : Option (Entry Resp Task World)}
variable {Meets : Shared Resp Task World → Entry Resp Task World → Prop}

theorem Start.holds (hH : H.Sound) (h : H.Start c) : H.Holds c := by
  refine ⟨fun e he => ?_, fun t k p ht => ?_, fun t k o r w τ hsuf => ?_⟩
  · rw [h.trace] at he
    cases he
  · obtain ⟨hlt, rfl, hpre⟩ := h.fresh t k p ht
    rw [h.trace]
    exact ⟨hlt, hH.body t k [] hpre⟩
  · rw [h.trace] at hsuf
    cases List.eq_nil_of_suffix_nil hsuf

/-- A thread that ends leaves the others theirs. -/
theorem Holds.drop (h : H.Holds c) {t : Tid} {k : Task} {p : Prog Resp (Option Task)} {w : World}
    (hat : c.threads t = some (k, p)) :
    H.Holds { toShared := c.toShared.ended t k w, threads := Function.update c.threads t none } := by
  refine ⟨List.forall_mem_cons.mpr ⟨(h.safe t k p hat).1, h.old⟩, fun u k' p' hu => ?_,
    fun u k' o r w' τ hsuf => ?_⟩
  · rcases eq_or_ne u t with rfl | hut
    · simp only [Function.update_self] at hu
      cases hu
    · simp only [Function.update_of_ne hut] at hu
      exact h.safe u k' p' hu
  · rcases List.suffix_cons_iff.mp hsuf with heq | hsuf
    · cases heq
    · exact h.line u k' o r w' τ hsuf

/-- One step keeps the habits. -/
theorem Sound.step (hH : H.Sound) (h : H.Holds c) (hs : M.Step c e c') : H.Holds c' := by
  cases hs with
  | @call t k o f q r w hat hq hnew =>
    obtain ⟨hlt, hsafe⟩ := h.safe t k _ hat
    obtain ⟨hgood, hrest⟩ := hsafe r
    have hnext := c.toShared.next_le_called (t := t) (k := k) (w := w) hnew
    refine ⟨List.forall_mem_cons.mpr ⟨?_, fun e he => ?_⟩, fun u k' p hu => ?_,
      fun u k' o' r' w' τ hsuf => ?_⟩
    · exact Nat.lt_of_lt_of_le hlt hnext
    · exact Nat.lt_of_lt_of_le (h.old e he) hnext
    · rcases M.threadsCalled_cases hu with ⟨hf, rfl⟩ | ⟨rfl, rfl, rfl⟩ | ⟨hut, hu⟩
      · -- a thread just started has no line yet
        have hle := hnew u k' hf
        have hown : own u (c.toShared.called M t k o r w).trace = [] := by
          refine own_eq_nil fun e he heq => ?_
          rcases List.mem_cons.mp he with rfl | he
          · have heq : t = u := heq
            exact Nat.not_le.mpr hlt (heq ▸ hle)
          · exact Nat.not_le.mpr (h.old e he) (heq ▸ hle)
        refine ⟨Shared.lt_next_of_forks hf, ?_⟩
        rw [hown]
        exact hH.body u k' [] (hH.forks hf)
      · refine ⟨Nat.lt_of_lt_of_le hlt hnext, ?_⟩
        simp only [Shared.called, own_did]
        exact hrest
      · obtain ⟨hlt', hsafe'⟩ := h.safe u k' p hu
        refine ⟨Nat.lt_of_lt_of_le hlt' hnext, ?_⟩
        simp only [Shared.called, own_did_of_ne hut.symm]
        exact hsafe'
    · rcases List.suffix_cons_iff.mp hsuf with heq | hsuf
      · cases heq
        exact hgood
      · exact h.line u k' o' r' w' τ hsuf
  | @again t k k' hat =>
    refine ⟨h.old, fun u k'' p hu => ?_, h.line⟩
    rcases eq_or_ne u t with rfl | hut
    · simp only [Function.update_self] at hu
      cases hu
      obtain ⟨hlt, hpre⟩ := h.safe u k _ hat
      exact ⟨hlt, hH.body u k' _ hpre⟩
    · simp only [Function.update_of_ne hut] at hu
      exact h.safe u k'' p hu
  | @exit t k hat => exact h.drop hat
  | @crash t k p w hat hw => exact h.drop hat
  | @env e w hw => exact ⟨h.old, h.safe, h.line⟩

theorem Sound.run (hH : H.Sound) (h₀ : H.Start c₀) (hr : M.Run Meets c₀ c) : H.Holds c := by
  induction hr with
  | start => exact h₀.holds hH
  | step _ hs _ ih => exact hH.step ih hs

/-- **Every line of every run is a good one**, given the thread's own
lines before it. -/
theorem Sound.line (hH : H.Sound) (h₀ : H.Start c₀) (hr : M.Run Meets c₀ c) {t : Tid} {k : Task}
    {o : Op} {r : Resp o} {w : World} {τ : List (Entry Resp Task World)}
    (hsuf : .did t k o r w :: τ <:+ c.trace) : H.good t k (own t τ) ⟨o, r⟩ :=
  (hH.run h₀ hr).line t k o r w τ hsuf

end Habits

/-- A line of a run was added to a state of the run. -/
theorem Machine.Run.exists_of_line {M : Machine Resp Task World}
    {c₀ c : Config Resp Task World} {Meets : Shared Resp Task World → Entry Resp Task World → Prop}
    (h₀ : c₀.trace = []) (hr : M.Run Meets c₀ c) {t : Tid} {k : Task} {o : Op} {r : Resp o}
    {w : World} {τ : List (Entry Resp Task World)} (hsuf : .did t k o r w :: τ <:+ c.trace) :
    ∃ c₁ c₂, M.Run Meets c₀ c₁ ∧ c₁.world = w ∧ c₁.trace = τ ∧
      M.Step c₁ (some (.did t k o r w)) c₂ ∧ c₂.trace = .did t k o r w :: τ ∧
      Meets c₁.toShared (.did t k o r w) := by
  induction hr with
  | start =>
    rw [h₀] at hsuf
    cases List.eq_nil_of_suffix_nil hsuf
  | @step c c' e hr hs hm ih =>
    have hs' := hs
    cases hs with
    | call hat hq hnew =>
      rcases List.suffix_cons_iff.mp hsuf with heq | hsuf
      · cases heq
        exact ⟨c, _, hr, rfl, rfl, hs', rfl, hm _ rfl⟩
      · exact ih hsuf
    | again hat => exact ih hsuf
    | exit hat | crash hat hw =>
      rcases List.suffix_cons_iff.mp hsuf with heq | hsuf
      · cases heq
      · exact ih hsuf
    | env hw => exact ih hsuf

/-- Every line of a run is a step of the machine. -/
theorem Machine.Run.did {M : Machine Resp Task World} {c₀ c : Config Resp Task World}
    {Meets : Shared Resp Task World → Entry Resp Task World → Prop} (h₀ : c₀.trace = [])
    (hr : M.Run Meets c₀ c) {t : Tid} {k : Task} {o : Op} {r : Resp o} {w : World}
    (hmem : .did t k o r w ∈ c.trace) : ∃ q w', M.step t o q w = some (r, w') := by
  induction hr with
  | start =>
    rw [h₀] at hmem
    cases hmem
  | step _ hs _ ih =>
    cases hs with
    | @call t' k' o' f q r' w' hat hq hnew =>
      rcases List.mem_cons.mp hmem with heq | hmem
      · cases heq
        exact ⟨q, w', hq⟩
      · exact ih hmem
    | again hat => exact ih hmem
    | exit hat | crash hat hw =>
      rcases List.mem_cons.mp hmem with heq | hmem
      · cases heq
      · exact ih hmem
    | env hw => exact ih hmem

end Interleave

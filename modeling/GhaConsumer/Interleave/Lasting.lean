import GhaConsumer.Interleave.Pool

/-!
# What no step undoes

A property of the world that every call, every end and every move of the
outside keeps is a property of the whole rest of a run. Together with
the point at which a line was added (`Machine.Run.since`) this says what
still holds of a call long after it.
-/

namespace Interleave

variable {Op : Type} {Resp : Op → Type} {Task World : Type}

namespace Machine

/-- Nothing that happens undoes it. -/
structure Lasting (M : Machine Resp Task World) (I : World → Prop) : Prop where
  step : ∀ {t : Tid} {o : Op} {q : M.Oracle o} {r : Resp o} {w w' : World},
    M.step t o q w = some (r, w') → I w → I w'
  leave : ∀ {t : Tid} {w : World}, I w → I (M.leave t w)
  crash : ∀ {t : Tid} {w w' : World}, M.crash t w = some w' → I w → I w'
  env : ∀ {e : M.Env} {w w' : World}, M.env e w = some w' → I w → I w'

variable {M : Machine Resp Task World} {I : World → Prop} {c₀ c c' : Config Resp Task World}
variable {Meets : Shared Resp Task World → Entry Resp Task World → Prop}

theorem Lasting.next (h : M.Lasting I) {e : Option (Entry Resp Task World)} (hs : M.Step c e c')
    (hI : I c.world) : I c'.world := by
  cases hs with
  | call hat hq hnew => exact h.step hq hI
  | again hat => exact hI
  | exit hat => exact h.leave hI
  | crash hat hw => exact h.crash hw hI
  | env hw => exact h.env hw hI

/-- Once true, true for the rest of the run. -/
theorem Lasting.run (h : M.Lasting I) (hr : M.Run Meets c c') (hI : I c.world) : I c'.world := by
  induction hr with
  | start => exact hI
  | step _ hs _ ih => exact h.next hs ih

/-- The point of a run at which a line was added, and what was left of the
run. -/
theorem Run.since (h₀ : c₀.trace = []) (hr : M.Run Meets c₀ c) {x : Entry Resp Task World}
    {τ : List (Entry Resp Task World)} (hsuf : x :: τ <:+ c.trace) :
    ∃ c₁ c₂, M.Run Meets c₀ c₁ ∧ c₁.world = x.before ∧ c₁.trace = τ ∧ M.Step c₁ (some x) c₂ ∧
      M.Run Meets c₂ c := by
  induction hr with
  | start =>
    rw [h₀] at hsuf
    cases List.eq_nil_of_suffix_nil hsuf
  | @step c c' e hr hs hm ih =>
    have hearlier : x :: τ <:+ c.trace → ∃ c₁ c₂, M.Run Meets c₀ c₁ ∧ c₁.world = x.before ∧
        c₁.trace = τ ∧ M.Step c₁ (some x) c₂ ∧ M.Run Meets c₂ c' := by
      intro hsuf
      obtain ⟨c₁, c₂, hr₁, hw, hτ, hstep, hrest⟩ := ih hsuf
      exact ⟨c₁, c₂, hr₁, hw, hτ, hstep, hrest.step hs hm⟩
    have hs' := hs
    cases hs with
    | call | exit | crash =>
      rcases List.suffix_cons_iff.mp hsuf with heq | hsuf
      · cases heq
        exact ⟨c, _, hr, rfl, rfl, hs', .start⟩
      · exact hearlier hsuf
    | again | env => exact hearlier hsuf

/-- Every earlier history is that of an earlier point of the run. -/
theorem Run.exists_of_suffix (h₀ : c₀.trace = []) (hr : M.Run Meets c₀ c)
    {τ : List (Entry Resp Task World)} (hτ : τ <:+ c.trace) :
    ∃ c₁, M.Run Meets c₀ c₁ ∧ c₁.trace = τ ∧ M.Run Meets c₁ c := by
  induction hr with
  | start =>
    rw [h₀] at hτ
    exact ⟨c₀, .start, h₀.trans (List.eq_nil_of_suffix_nil hτ).symm, .start⟩
  | @step c c' e hr hs hm ih =>
    have hearlier : τ <:+ c.trace → ∃ c₁, M.Run Meets c₀ c₁ ∧ c₁.trace = τ ∧ M.Run Meets c₁ c' := by
      intro hτ
      obtain ⟨c₁, hr₁, htrace, hrest⟩ := ih hτ
      exact ⟨c₁, hr₁, htrace, hrest.step hs hm⟩
    have hs' := hs
    cases hs with
    | call | exit | crash =>
      rcases List.suffix_cons_iff.mp hτ with rfl | hτ
      · exact ⟨_, hr.step hs' hm, rfl, .start⟩
      · exact hearlier hτ
    | again | env => exact hearlier hτ

/-- Every line added met the condition. -/
theorem Run.met (h₀ : c₀.trace = []) (hr : M.Run Meets c₀ c) {x : Entry Resp Task World}
    {τ : List (Entry Resp Task World)} (hsuf : x :: τ <:+ c.trace) :
    ∃ s : Shared Resp Task World, s.trace = τ ∧ Meets s x := by
  induction hr with
  | start =>
    rw [h₀] at hsuf
    cases List.eq_nil_of_suffix_nil hsuf
  | step hr hs hm ih =>
    cases hs with
    | call | exit | crash =>
      rcases List.suffix_cons_iff.mp hsuf with heq | hsuf
      · cases heq
        exact ⟨_, rfl, hm _ rfl⟩
      · exact ih hsuf
    | again | env => exact ih hsuf

end Machine

end Interleave

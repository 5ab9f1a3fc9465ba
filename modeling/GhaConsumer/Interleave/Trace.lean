import GhaConsumer.Interleave.Program
import Mathlib.Data.List.Infix

/-!
# Programs against any answers

What a program does when its calls may answer anything: the histories it
can produce, and rules of pre- and postconditions over histories. What is
shown of every call "given what went before" holds at every point of
every history, complete or not (`Triple.steps`).
-/

namespace Interleave

variable {Op : Type} {Resp : Op → Type} {α β : Type}

/-- A call with its answer. -/
abbrev Event (Resp : Op → Type) : Type := (o : Op) × Resp o

/-- What has been called so far, the latest first. -/
abbrev History (Resp : Op → Type) : Type := List (Event Resp)

namespace Prog

/-- What is left of a program, and the history, after some of its calls. -/
inductive Steps (p : Prog Resp α) (τ : History Resp) : Prog Resp α → History Resp → Prop
  | refl : Steps p τ p τ
  | call {τ' : History Resp} {o : Op} {k : Resp o → Prog Resp α} (r : Resp o) :
      Steps p τ (.call o k) τ' → Steps p τ (k r) (⟨o, r⟩ :: τ')

/-- The program after these calls and answers, the earliest first, where
they are the calls it makes. -/
def replay [DecidableEq Op] : List (Event Resp) → Prog Resp α → Option (Prog Resp α)
  | [], p => some p
  | _ :: _, .ret _ => none
  | e :: es, .call o k => if h : e.1 = o then replay es (k (h ▸ e.2)) else none

theorem steps_replay [DecidableEq Op] {es : List (Event Resp)} {p q q' : Prog Resp α}
    {τ σ : History Resp} (h : Steps p τ q σ) (hq : replay es q = some q') :
    Steps p τ q' (es.reverse ++ σ) := by
  induction es generalizing q σ with
  | nil => cases hq; exact h
  | cons e es ih =>
    cases q with
    | ret a => cases hq
    | call o k =>
      unfold replay at hq
      split at hq
      · rename_i heq
        obtain ⟨o', r⟩ := e
        subst heq
        rw [List.reverse_cons, List.append_assoc]
        exact ih (.call r h) hq
      · cases hq

end Prog

/-- A call made only where fewer than `n` of its kind went before is made
`n` times at most. -/
theorem History.countP_le {P : Event Resp → Bool} {n : ℕ} {τ : History Resp}
    (h : ∀ e σ, e :: σ <:+ τ → P e = true → List.countP P σ < n) : List.countP P τ ≤ n := by
  induction τ with
  | nil => exact Nat.zero_le n
  | cons e τ ih =>
    have hτ := ih fun e' σ hsuf => h e' σ (hsuf.trans (List.suffix_cons _ _))
    by_cases he : P e = true
    · rw [List.countP_cons_of_pos he]
      exact h e τ (List.suffix_refl _) he
    · rwa [List.countP_cons_of_neg he]

namespace Trace

/-- From history `τ` on, every call is good given what went before, and
what is returned satisfies `Q`. -/
def Safe (good : History Resp → Event Resp → Prop) (Q : α → History Resp → Prop) :
    Prog Resp α → History Resp → Prop
  | .ret a, τ => Q a τ
  | .call o k, τ => ∀ r, good τ ⟨o, r⟩ ∧ Safe good Q (k r) (⟨o, r⟩ :: τ)

/-- The rule of pre- and postconditions over `Safe`. -/
def Triple (good : History Resp → Event Resp → Prop) (A : History Resp → Prop) (p : Prog Resp α)
    (Q : α → History Resp → Prop) : Prop :=
  ∀ τ, A τ → Safe good Q p τ

variable {good : History Resp → Event Resp → Prop} {A A' : History Resp → Prop}
variable {p : Prog Resp α} {Q Q' : α → History Resp → Prop} {τ τ' : History Resp}

/-! ## Rules -/

theorem Triple.ret {a : α} (h : ∀ τ, A τ → Q a τ) : Triple good A (.ret a) Q := h

theorem Triple.call {o : Op} {k : Resp o → Prog Resp α} {B : Resp o → History Resp → Prop}
    (ho : ∀ τ r, A τ → good τ ⟨o, r⟩ ∧ B r (⟨o, r⟩ :: τ))
    (hk : ∀ r, Triple good (B r) (k r) Q) : Triple good A (.call o k) Q :=
  fun τ hA r => ⟨(ho τ r hA).1, hk r _ (ho τ r hA).2⟩

/-- One call, and the rest. -/
theorem Triple.step {o : Op} {f : Resp o → Prog Resp α} {B : Resp o → History Resp → Prop}
    (ho : ∀ τ r, A τ → good τ ⟨o, r⟩ ∧ B r (⟨o, r⟩ :: τ))
    (hf : ∀ r, Triple good (B r) (f r) Q) : Triple good A (Prog.op o >>= f) Q :=
  Triple.call ho hf

/-- One call by itself. -/
theorem Triple.op {o : Op} {B : Resp o → History Resp → Prop}
    (ho : ∀ τ r, A τ → good τ ⟨o, r⟩ ∧ B r (⟨o, r⟩ :: τ)) : Triple good A (Prog.op o) B :=
  Triple.call ho fun _ => Triple.ret fun _ h => h

theorem Safe.mono (h : Safe good Q p τ) (hQ : ∀ a τ, Q a τ → Q' a τ) : Safe good Q' p τ := by
  induction p generalizing τ with
  | ret a => exact hQ a τ h
  | call o k ih => exact fun r => ⟨(h r).1, ih r (h r).2⟩

theorem Triple.conseq (h : Triple good A p Q) (hA : ∀ τ, A' τ → A τ)
    (hQ : ∀ a τ, Q a τ → Q' a τ) : Triple good A' p Q' :=
  fun τ hτ => (h τ (hA τ hτ)).mono hQ

theorem Triple.pre (h : Triple good A p Q) (hA : ∀ τ, A' τ → A τ) : Triple good A' p Q :=
  h.conseq hA fun _ _ hq => hq

theorem Triple.post (h : Triple good A p Q) (hQ : ∀ a τ, Q a τ → Q' a τ) :
    Triple good A p Q' :=
  h.conseq (fun _ ha => ha) hQ

theorem Safe.bind {f : α → Prog Resp β} {R : β → History Resp → Prop} (h : Safe good Q p τ)
    (hf : ∀ a, Triple good (Q a) (f a) R) : Safe good R (p >>= f) τ := by
  induction p generalizing τ with
  | ret a => exact hf a τ h
  | call o k ih => exact fun r => ⟨(h r).1, ih r (h r).2⟩

theorem Triple.bind {f : α → Prog Resp β} {R : β → History Resp → Prop} (h : Triple good A p Q)
    (hf : ∀ a, Triple good (Q a) (f a) R) : Triple good A (p >>= f) R :=
  fun τ hA => (h τ hA).bind hf

/-- A pure part of the precondition is a hypothesis. -/
theorem Triple.pure_and {φ : Prop} (h : φ → Triple good A p Q) :
    Triple good (fun τ => φ ∧ A τ) p Q :=
  fun τ hA => h hA.1 τ hA.2

/-- A loop over what a call returns keeps its invariant. -/
theorem Triple.whileSome {ε ι σ : Type} {stop : ε} {next : Prog Resp (Except ε (Option ι))}
    {f : σ → ι → Prog Resp σ} {I : σ → History Resp → Prop}
    {J : σ → Except ε (Option ι) → History Resp → Prop} {Q : Except ε σ → History Resp → Prop}
    (hnext : ∀ s, Triple good (I s) next (J s))
    (hf : ∀ s x, Triple good (J s (.ok (some x))) (f s x) I)
    (hdone : ∀ s τ, J s (.ok none) τ → Q (.ok s) τ)
    (herror : ∀ s e τ, J s (.error e) τ → Q (.error e) τ)
    (hstop : ∀ s τ, I s τ → Q (.error stop) τ) (fuel : ℕ) (s : σ) :
    Triple good (I s) (Prog.whileSome stop next f fuel s) Q := by
  induction fuel generalizing s with
  | zero => exact Triple.ret (hstop s)
  | succ fuel ih =>
    refine (hnext s).bind fun r => ?_
    rcases r with e | _ | x
    · exact Triple.ret (herror s e)
    · exact Triple.ret (hdone s)
    · exact (hf s x).bind fun s' => ih s'

/-! ## What calls leave true -/

/-- The calls in `φ` leave `B` true, whatever they return. -/
def Kept (φ : Op → Prop) (B : History Resp → Prop) : Prop :=
  ∀ (o : Op) (r : Resp o) (τ : History Resp), φ o → B τ → B (⟨o, r⟩ :: τ)

/-- Once true of a history, true of every longer one. -/
def Lasting (B : History Resp → Prop) : Prop := ∀ e τ, B τ → B (e :: τ)

variable {φ : Op → Prop} {B B' : History Resp → Prop}

theorem Kept.and (h : Kept φ B) (h' : Kept φ B') : Kept φ fun τ => B τ ∧ B' τ :=
  fun o r τ ho hτ => ⟨h o r τ ho hτ.1, h' o r τ ho hτ.2⟩

theorem Lasting.kept (h : Lasting B) : Kept φ B := fun _ _ _ _ hτ => h _ _ hτ

theorem Lasting.true : Lasting fun _ : History Resp => True := fun _ _ _ => trivial

theorem Lasting.mem {e : Event Resp} : Lasting fun τ => e ∈ τ :=
  fun _ _ h => List.mem_cons_of_mem _ h

/-- A program all of whose calls are good where `B` holds, and keep it. -/
theorem Triple.only (hp : p.Only φ)
    (hφ : ∀ o r τ, φ o → B τ → good τ ⟨o, r⟩ ∧ B (⟨o, r⟩ :: τ)) :
    Triple good B p fun _ => B := by
  induction p with
  | ret a => exact Triple.ret fun _ h => h
  | call o k ih => exact Triple.call (fun τ r hτ => hφ o r τ hp.1 hτ) fun r => ih r (hp.2 r)

/-- A program all of whose calls are good, whatever went before. -/
theorem Triple.of_only {ρ : α → Prop} (hp : p.Only φ) (hr : p.Returns ρ)
    (hφ : ∀ o r τ, φ o → good τ ⟨o, r⟩) : Triple good A p fun a _ => ρ a := by
  induction p generalizing A with
  | ret a => exact Triple.ret fun _ _ => hr
  | call o k ih =>
    exact Triple.call (B := fun _ _ => True) (fun τ r _ => ⟨hφ o r τ hp.1, trivial⟩)
      fun r => ih r (hp.2 r) (hr r)

/-- What a program returns whatever the answers is known after it. -/
theorem Triple.and_returns {ρ : α → Prop} (h : Triple good A p Q) (hr : p.Returns ρ) :
    Triple good A p fun a τ => ρ a ∧ Q a τ := by
  intro τ hA
  have hs := h τ hA
  clear h hA
  induction p generalizing τ with
  | ret a => exact ⟨hr, hs⟩
  | call o k ih => exact fun r => ⟨(hs r).1, ih r (hr r) _ (hs r).2⟩

/-! ## In another interface -/

section Lower

variable {Op' : Type} {Resp' : Op' → Type} {impl : (o : Op') → Prog Resp (Resp' o)}
variable {R : α → History Resp → Prop}

/-- One call of another interface, carried out, and the rest. -/
theorem Triple.lowerStep {o : Op'} {f : Resp' o → Prog Resp' α} {B : Resp' o → History Resp → Prop}
    (ho : Triple good A (impl o) B) (hf : ∀ r, Triple good (B r) ((f r).lower impl) R) :
    Triple good A ((Prog.op o >>= f).lower impl) R :=
  ho.bind hf

/-- Two parts in another interface. -/
theorem Triple.lowerBind {p : Prog Resp' β} {f : β → Prog Resp' α} {B : β → History Resp → Prop}
    (hp : Triple good A (p.lower impl) B) (hf : ∀ b, Triple good (B b) ((f b).lower impl) R) :
    Triple good A ((p >>= f).lower impl) R := by
  rw [Prog.lower_bind]
  exact hp.bind hf

/-- A program over calls each of which, carried out, keeps `A`. -/
theorem Triple.lower_only {φ : Op' → Prop} {p : Prog Resp' α} (hp : p.Only φ)
    (himpl : ∀ o, φ o → Triple good A (impl o) fun _ => A) :
    Triple good A (p.lower impl) fun _ => A := by
  induction p with
  | ret a => exact Triple.ret fun _ h => h
  | call o k ih => exact (himpl o hp.1).bind fun r => ih r (hp.2 r)

end Lower

theorem Safe.weaken {good' : History Resp → Event Resp → Prop} (h : Safe good Q p τ)
    (hg : ∀ σ e, good σ e → good' σ e) : Safe good' Q p τ := by
  induction p generalizing τ with
  | ret a => exact h
  | call o k ih => exact fun r => ⟨hg τ _ (h r).1, ih r (h r).2⟩

/-- What a program calls may be added to what is good. -/
theorem Triple.and_only {φ : Op → Prop} (h : Triple good A p Q) (hp : p.Only φ) :
    Triple (fun τ e => good τ e ∧ φ e.1) A p Q := by
  intro τ hA
  have hs := h τ hA
  clear h hA
  induction p generalizing τ with
  | ret a => exact hs
  | call o k ih => exact fun r => ⟨⟨(hs r).1, hp.1⟩, ih r (hp.2 r) _ (hs r).2⟩

section Seen

variable {Op' : Type} {Resp' : Op' → Type} {π : Event Resp → Option (Event Resp')}
variable {impl : (o : Op') → Prog Resp (Resp' o)}

variable (π impl) in
/-- Each call, carried out, shows as itself through `π`, and as nothing
else. -/
def Shows : Prop :=
  ∀ o τ, Safe (fun σ e => ∀ e', π e = some e' → σ.filterMap π = τ.filterMap π ∧ ∃ r, e' = ⟨o, r⟩)
    (fun r σ => σ.filterMap π = ⟨o, r⟩ :: τ.filterMap π) (impl o) τ

/-- What is shown of a program holds of it carried out, of what shows of
its calls. -/
theorem Triple.lower {good : History Resp' → Event Resp' → Prop} {A : History Resp' → Prop}
    {p : Prog Resp' α} {Q : α → History Resp' → Prop} (h : Triple good A p Q)
    (himpl : Shows π impl) :
    Triple (fun τ e => ∀ e', π e = some e' → good (τ.filterMap π) e')
      (fun τ => A (τ.filterMap π)) (p.lower impl) fun a τ => Q a (τ.filterMap π) := by
  intro τ hA
  have hs := h _ hA
  clear h hA
  induction p generalizing τ with
  | ret a => exact hs
  | call o k ih =>
    refine ((himpl o τ).weaken fun σ e he e' hπ => ?_).bind fun r σ hσ => ?_
    · obtain ⟨hσ, r, rfl⟩ := he e' hπ
      rw [hσ]
      exact (hs r).1
    · refine ih r σ ?_
      rw [hσ]
      exact (hs r).2

end Seen

/-! ## Soundness -/

theorem Safe.steps {p' : Prog Resp α} (h : Safe good Q p τ) (hs : Prog.Steps p τ p' τ') :
    Safe good Q p' τ' := by
  induction hs with
  | refl => exact h
  | call r _ ih => exact (ih r).2

/-- **Every call of every history is good given what went before it.** -/
theorem Triple.steps {p' : Prog Resp α} (h : Triple good A p Q) (hA : A [])
    (hs : Prog.Steps p [] p' τ) : ∀ e σ, e :: σ <:+ τ → good σ e := by
  induction hs with
  | refl =>
    intro e σ hsuf
    exact absurd (List.eq_nil_of_suffix_nil hsuf) (by simp)
  | call r hs ih =>
    intro e σ hsuf
    rcases List.suffix_cons_iff.mp hsuf with heq | hsuf
    · cases heq
      exact ((h [] hA).steps hs r).1
    · exact ih e σ hsuf

/-- What a program returns satisfies its postcondition. -/
theorem Triple.returns {a : α} (h : Triple good A p Q) (hA : A [])
    (hs : Prog.Steps p [] (.ret a) τ) : Q a τ :=
  (h [] hA).steps hs

end Trace

end Interleave

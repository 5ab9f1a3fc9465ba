import GhaConsumer.Interleave.Alone
import Mathlib.Algebra.Order.Monoid.Defs
import Mathlib.Algebra.Order.Monoid.Unbundled.Basic

/-!
# Programs by the clock

How long a program may take. The clock is read off the state, and each
call may move it; `Within` says that a program has moved it by at most so
much wherever it may be stopped, and adds up along a program.
-/

namespace Interleave

namespace Alone

variable {Op : Type} {Resp : Op → Type} {α β σ : Type}
/-- Where every call is answered so that `B` still holds, the program ends
with it. -/
theorem exists_ends_keeping {step : Step Resp σ} {φ : Op → Prop} {B : σ → Prop} {p : Prog Resp α}
    (hp : p.Only φ) (hφ : ∀ o s, φ o → B s → ∃ r s', step o s r s' ∧ B s') {s : σ} (hB : B s) :
    ∃ a s', Ends step p s a s' ∧ B s' := by
  induction p generalizing s with
  | ret a => exact ⟨a, s, ⟨rfl, rfl⟩, hB⟩
  | call o k ih =>
    obtain ⟨r, s₁, hs, hB₁⟩ := hφ o s hp.1 hB
    obtain ⟨a, s', h, hB'⟩ := ih r (hp.2 r) hB₁
    exact ⟨a, s', ⟨r, s₁, hs, h⟩, hB'⟩

theorem visits_bind {f : α → Prog Resp β} {step : Step Resp σ} {p : Prog Resp α} {s s₁ s' : σ}
    {a : α} (h : Ends step p s a s₁) (hv : Visits step (f a) s₁ s') :
    Visits step (p >>= f) s s' := by
  induction p generalizing s with
  | ret b =>
    obtain ⟨rfl, rfl⟩ := h
    exact hv
  | call o k ih =>
    obtain ⟨r, s₂, hs, hk⟩ := h
    exact .inr ⟨r, s₂, hs, ih r hk⟩

variable {T : Type} [AddCommMonoid T] [PartialOrder T]

/-- From a state with `A` on the program takes at most `c`, and returns
with `Q`. -/
def Within (step : Step Resp σ) (clock : σ → T) (A : σ → Prop) (c : T) (p : Prog Resp α)
    (Q : α → σ → Prop) : Prop :=
  ∀ s, A s → Keeps step (fun s' => clock s' ≤ clock s + c) Q p s

variable {step : Step Resp σ} {clock : σ → T} {A A' : σ → Prop} {c d : T} {p : Prog Resp α}
variable {Q Q' : α → σ → Prop} {R : β → σ → Prop} {s s' : σ} {a : α}

theorem Keeps.weaken {I J : σ → Prop} (h : Keeps step I Q p s) (hI : ∀ s, I s → J s)
    (hQ : ∀ a s, I s → Q a s → Q' a s) : Keeps step J Q' p s := by
  induction p generalizing s with
  | ret a => exact ⟨hI s h.1, hQ a s h.1 h.2⟩
  | call o k ih => exact ⟨hI s h.1, fun r s₁ hs => ih r (h.2 r s₁ hs)⟩

theorem Within.ends (h : Within step clock A c p Q) (ha : A s) (he : Ends step p s a s') :
    clock s' ≤ clock s + c ∧ Q a s' :=
  (h s ha).ends he

theorem Within.visits (h : Within step clock A c p Q) (ha : A s) (hv : Visits step p s s') :
    clock s' ≤ clock s + c :=
  (h s ha).visits hv

/-- A program none of whose calls moves the clock, or ends what `A`
says. -/
theorem Within.only {φ : Op → Prop} (hp : p.Only φ)
    (hφ : ∀ o s r s₁, φ o → A s → step o s r s₁ → clock s₁ ≤ clock s ∧ A s₁) :
    Within step clock A 0 p fun _ => A := by
  intro s ha
  have hk : Keeps step (fun s₁ => clock s₁ ≤ clock s) (fun _ => A) p s := Triple.only hp
    (fun o s₁ r s₂ ho hi ha₁ hs =>
      ⟨(hφ o s₁ r s₂ ho ha₁ hs).1.trans hi, (hφ o s₁ r s₂ ho ha₁ hs).2⟩)
    s (le_refl _) ha
  refine hk.weaken (fun s₁ h₁ => ?_) fun _ _ _ h => h
  rwa [add_zero]

variable [IsOrderedAddMonoid T]

theorem Within.ret (hc : 0 ≤ c) (h : ∀ s, A s → Q a s) :
    Within step clock A c (.ret a : Prog Resp α) Q :=
  fun s ha => ⟨le_add_of_nonneg_right hc, h s ha⟩

/-- The times of the parts add up. -/
theorem Within.bind {f : α → Prog Resp β} (hp : Within step clock A c p Q) (hd : 0 ≤ d)
    (hf : ∀ a, Within step clock (Q a) d (f a) R) : Within step clock A (c + d) (p >>= f) R := by
  intro s ha
  refine Keeps.bind (Q := fun a s₁ => clock s₁ ≤ clock s + c ∧ Q a s₁) ?_ ?_
  · refine (hp s ha).weaken (fun s₁ h₁ => ?_) fun a s₁ h₁ hq => ⟨h₁, hq⟩
    exact h₁.trans (add_le_add_right (le_add_of_nonneg_right hd) _)
  · intro a s₁ _ hq
    refine (hf a s₁ hq.2).weaken (fun s₂ h₂ => ?_) fun _ _ _ h => h
    rw [← add_assoc]
    exact h₂.trans (add_le_add_left hq.1 d)

/-- One call, and the rest. -/
theorem Within.call {o : Op} {f : Resp o → Prog Resp β} {B : Resp o → σ → Prop}
    (ho : ∀ s r s₁, A s → step o s r s₁ → clock s₁ ≤ clock s + c ∧ B r s₁) (hc : 0 ≤ c)
    (hd : 0 ≤ d) (hf : ∀ r, Within step clock (B r) d (f r) R) :
    Within step clock A (c + d) (Prog.op o >>= f) R := by
  refine Within.bind (Q := B) (fun s ha => ?_) hd hf
  exact ⟨le_add_of_nonneg_right hc, fun r s₁ hs => ho s r s₁ ha hs⟩

theorem Within.mono (h : Within step clock A c p Q) (hcd : c ≤ d) (hA : ∀ s, A' s → A s)
    (hQ : ∀ a s, Q a s → Q' a s) : Within step clock A' d p Q' :=
  fun s ha => (h s (hA s ha)).weaken (fun _ h₁ => h₁.trans (add_le_add_right hcd _))
    fun a s _ hq => hQ a s hq

end Alone

end Interleave

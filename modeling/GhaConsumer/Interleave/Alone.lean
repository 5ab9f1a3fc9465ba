import GhaConsumer.Interleave.Program

/-!
# Programs run by themselves

What a program does when nothing else runs: `step` says what each call
may answer and leave behind, `Ends` what the whole program may return and
leave, and `Visits` where it may be stopped on the way. `Triple` is the
rule of pre- and postconditions, with an invariant every call must keep.
-/

namespace Interleave

variable {Op : Type} {Resp : Op → Type} {α β σ : Type}

namespace Alone

/-- What a call may do: from a state, with an answer, to a state. -/
abbrev Step (Resp : Op → Type) (σ : Type) : Type := (o : Op) → σ → Resp o → σ → Prop

variable (step : Step Resp σ)

/-- From `s` the program may return `a` and leave `s'`. -/
def Ends : Prog Resp α → σ → α → σ → Prop
  | .ret b, s, a, s' => a = b ∧ s' = s
  | .call o k, s, a, s' => ∃ r s₁, step o s r s₁ ∧ Ends (k r) s₁ a s'

variable {step}
variable {p : Prog Resp α} {s s' s₁ : σ} {a b : α} {o : Op} {c : β}

@[simp] theorem ends_ret : Ends step (.ret b : Prog Resp α) s a s' ↔ a = b ∧ s' = s := Iff.rfl

@[simp] theorem ends_call {k : Resp o → Prog Resp α} :
    Ends step (.call o k) s a s' ↔ ∃ r s₁, step o s r s₁ ∧ Ends step (k r) s₁ a s' := Iff.rfl

@[simp] theorem ends_bind {f : α → Prog Resp β} :
    Ends step (p >>= f) s c s' ↔ ∃ a s₁, Ends step p s a s₁ ∧ Ends step (f a) s₁ c s' := by
  induction p generalizing s with
  | ret b =>
    constructor
    · intro h
      exact ⟨b, s, ⟨rfl, rfl⟩, h⟩
    · rintro ⟨_, _, ⟨rfl, rfl⟩, h⟩
      exact h
  | call o k ih =>
    simp only [Prog.call_bind, ends_call, ih]
    constructor
    · rintro ⟨r, s₁, hs, a, s₂, hp, hf⟩
      exact ⟨a, s₂, ⟨r, s₁, hs, hp⟩, hf⟩
    · rintro ⟨a, s₂, ⟨r, s₁, hs, hp⟩, hf⟩
      exact ⟨r, s₁, hs, a, s₂, hp, hf⟩

/-- One call, and the rest. -/
theorem ends_step {f : Resp o → Prog Resp β} :
    Ends step (Prog.op o >>= f) s c s' ↔ ∃ r s₁, step o s r s₁ ∧ Ends step (f r) s₁ c s' := Iff.rfl

/-- The runs of a program whose calls other programs carry out are its
own, each call a run of the one that carries it out. -/
theorem ends_lower {Op' : Type} {Resp' : Op' → Type} {impl : (o : Op') → Prog Resp (Resp' o)}
    {p : Prog Resp' α} : Ends step (p.lower impl) s a s' ↔
      Ends (fun o s r s' => Ends step (impl o) s r s') p s a s' := by
  induction p generalizing s with
  | ret b => exact Iff.rfl
  | call o k ih =>
    rw [Prog.lower_call, ends_bind, ends_call]
    exact exists_congr fun r => exists_congr fun s₁ => and_congr_right fun _ => ih r

/-- Where every call is answered and keeps an invariant, the program ends. -/
theorem exists_ends_inv {φ : Op → Prop} {I : σ → Prop} (hp : p.Only φ)
    (hφ : ∀ o s, φ o → I s → ∃ r s', step o s r s')
    (hI : ∀ o s r s', φ o → I s → step o s r s' → I s') (hs : I s) :
    ∃ a s', Ends step p s a s' ∧ I s' := by
  induction p generalizing s with
  | ret a => exact ⟨a, s, ⟨rfl, rfl⟩, hs⟩
  | call o k ih =>
    obtain ⟨r, s₁, h₁⟩ := hφ o s hp.1 hs
    obtain ⟨a, s', h, hs'⟩ := ih r (hp.2 r) (hI o s r s₁ hp.1 hs h₁)
    exact ⟨a, s', ⟨r, s₁, h₁, h⟩, hs'⟩

/-- Where every call is answered, the program ends. -/
theorem exists_ends {φ : Op → Prop} (hp : p.Only φ)
    (hφ : ∀ o s, φ o → ∃ r s', step o s r s') (s : σ) : ∃ a s', Ends step p s a s' := by
  obtain ⟨a, s', h, -⟩ := exists_ends_inv (I := fun _ => True) hp (fun o s ho _ => hφ o s ho)
    (fun _ _ _ _ _ _ _ => trivial) (s := s) trivial
  exact ⟨a, s', h⟩

/-- What every call of the program leaves alone, the program leaves
alone. -/
theorem Ends.only {φ : Op → Prop} {B : σ → Prop} (h : Ends step p s a s') (hp : p.Only φ)
    (hφ : ∀ o r s s', φ o → step o s r s' → B s → B s') (hB : B s) : B s' := by
  induction p generalizing s with
  | ret b => rw [(ends_ret.mp h).2]; exact hB
  | call o k ih =>
    obtain ⟨r, s₁, hs, hk⟩ := h
    exact ih r hk (hp.2 r) (hφ o r s s₁ hp.1 hs hB)

/-- Where more is possible the program may still end so. -/
theorem Ends.mono {step' : Step Resp σ} (h : Ends step p s a s')
    (hs : ∀ o s r s', step o s r s' → step' o s r s') : Ends step' p s a s' := by
  induction p generalizing s with
  | ret b => exact h
  | call o k ih =>
    obtain ⟨r, s₁, h₁, hk⟩ := h
    exact ⟨r, s₁, hs o s r s₁ h₁, ih r hk⟩

/-! ## On the way -/

variable (step) in
/-- From `s` the program may be at `s'` before a call, or at its end. -/
def Visits : Prog Resp α → σ → σ → Prop
  | .ret _, s, s' => s' = s
  | .call o k, s, s' => s' = s ∨ ∃ r s₁, step o s r s₁ ∧ Visits (k r) s₁ s'

variable (step) in
/-- From `s` on the program keeps `I`, and what it returns satisfies `Q`. -/
def Keeps (I : σ → Prop) (Q : α → σ → Prop) : Prog Resp α → σ → Prop
  | .ret a, s => I s ∧ Q a s
  | .call o k, s => I s ∧ ∀ r s₁, step o s r s₁ → Keeps I Q (k r) s₁

variable (step) in
/-- The rule of pre- and postconditions over `Keeps`. -/
def Triple (I A : σ → Prop) (p : Prog Resp α) (Q : α → σ → Prop) : Prop :=
  ∀ s, I s → A s → Keeps step I Q p s

variable {I A A' : σ → Prop} {Q Q' : α → σ → Prop} {R : β → σ → Prop}

theorem Keeps.inv (h : Keeps step I Q p s) : I s := by
  cases p with
  | ret a => exact h.1
  | call o k => exact h.1

theorem Keeps.visits (h : Keeps step I Q p s) (hv : Visits step p s s') : I s' := by
  induction p generalizing s with
  | ret a => rw [show s' = s from hv]; exact h.1
  | call o k ih =>
    rcases hv with rfl | ⟨r, s₁, hs, hv⟩
    · exact h.1
    · exact ih r (h.2 r s₁ hs) hv

theorem Keeps.ends (h : Keeps step I Q p s) (he : Ends step p s a s') : I s' ∧ Q a s' := by
  induction p generalizing s with
  | ret b =>
    obtain ⟨rfl, rfl⟩ := he
    exact h
  | call o k ih =>
    obtain ⟨r, s₁, hs, he⟩ := he
    exact ih r (h.2 r s₁ hs) he

theorem Keeps.bind {f : α → Prog Resp β} (h : Keeps step I Q p s)
    (hf : ∀ a, Triple step I (Q a) (f a) R) : Keeps step I R (p >>= f) s := by
  induction p generalizing s with
  | ret a => exact hf a s h.1 h.2
  | call o k ih => exact ⟨h.1, fun r s₁ hs => ih r (h.2 r s₁ hs)⟩

theorem Triple.ret (h : ∀ s, I s → A s → Q a s) : Triple step I A (.ret a) Q :=
  fun s hi ha => ⟨hi, h s hi ha⟩

theorem Triple.bind {f : α → Prog Resp β} (h : Triple step I A p Q)
    (hf : ∀ a, Triple step I (Q a) (f a) R) : Triple step I A (p >>= f) R :=
  fun s hi ha => (h s hi ha).bind hf

/-- One call, and the rest. -/
theorem Triple.call {f : Resp o → Prog Resp β} {B : Resp o → σ → Prop}
    (ho : ∀ s r s₁, I s → A s → step o s r s₁ → I s₁ ∧ B r s₁)
    (hf : ∀ r, Triple step I (B r) (f r) R) : Triple step I A (Prog.op o >>= f) R :=
  fun s hi ha => ⟨hi, fun r s₁ hs => hf r s₁ (ho s r s₁ hi ha hs).1 (ho s r s₁ hi ha hs).2⟩

theorem Triple.pre (h : Triple step I A p Q) (hA : ∀ s, I s → A' s → A s) :
    Triple step I A' p Q :=
  fun s hi ha => h s hi (hA s hi ha)

/-- A program all of whose calls keep the invariant and an assertion
keeps both. -/
theorem Triple.only {φ : Op → Prop} (hp : p.Only φ)
    (hφ : ∀ o s r s₁, φ o → I s → A s → step o s r s₁ → I s₁ ∧ A s₁) :
    Triple step I A p fun _ => A := by
  induction p with
  | ret a => exact Triple.ret fun _ _ h => h
  | call o k ih =>
    intro s hi ha
    refine ⟨hi, fun r s₁ hs => ?_⟩
    obtain ⟨hi₁, ha₁⟩ := hφ o s r s₁ hp.1 hi ha hs
    exact ih r (hp.2 r) s₁ hi₁ ha₁

/-- A loop over what a call returns; the invariant may count the rounds
left. -/
theorem Triple.whileSome {ε ι τ : Type} {stop : ε} {next : Prog Resp (Except ε (Option ι))}
    {f : τ → ι → Prog Resp τ} {B : ℕ → τ → σ → Prop}
    {J : ℕ → τ → Except ε (Option ι) → σ → Prop} {Q : Except ε τ → σ → Prop}
    (hnext : ∀ n x, Triple step I (B (n + 1) x) next (J n x))
    (hf : ∀ n x y, Triple step I (J n x (.ok (some y))) (f x y) (B n))
    (hdone : ∀ n x s, I s → J n x (.ok none) s → Q (.ok x) s)
    (herror : ∀ n x e s, I s → J n x (.error e) s → Q (.error e) s)
    (hstop : ∀ x s, I s → B 0 x s → Q (.error stop) s) (fuel : ℕ) (x : τ) :
    Triple step I (B fuel x) (Prog.whileSome stop next f fuel x) Q := by
  induction fuel generalizing x with
  | zero => exact Triple.ret (hstop x)
  | succ fuel ih =>
    refine (hnext fuel x).bind fun r => ?_
    rcases r with e | _ | y
    · exact Triple.ret (herror fuel x e)
    · exact Triple.ret (hdone fuel x)
    · exact (hf fuel x y).bind fun x' => ih x'

/-! ## Computed answers -/

/-- The program where each call's answer is computed. -/
def run (exec : (o : Op) → σ → Option (Resp o × σ)) : Prog Resp α → σ → Option (α × σ)
  | .ret a, s => some (a, s)
  | .call o k, s => (exec o s).bind fun x => run exec (k x.1) x.2

theorem run_bind {exec : (o : Op) → σ → Option (Resp o × σ)} {f : α → Prog Resp β} :
    run exec (p >>= f) s = (run exec p s).bind fun x => run exec (f x.1) x.2 := by
  induction p generalizing s with
  | ret a => rfl
  | call o k ih =>
    simp only [Prog.call_bind, run, Option.bind_assoc]
    congr 1
    exact funext fun x => ih x.1

/-- Answers that are possible lead where the program may end. -/
theorem ends_of_run {exec : (o : Op) → σ → Option (Resp o × σ)}
    (hexec : ∀ o s r s', exec o s = some (r, s') → step o s r s')
    (h : run exec p s = some (a, s')) : Ends step p s a s' := by
  induction p generalizing s with
  | ret b =>
    cases h
    exact ⟨rfl, rfl⟩
  | call o k ih =>
    obtain ⟨⟨r, s₁⟩, hx, hk⟩ := Option.bind_eq_some_iff.mp h
    exact ⟨r, s₁, hexec o s r s₁ hx, ih r hk⟩

end Alone

end Interleave

import Mathlib.Data.Nat.Notation
import Mathlib.Logic.Relation

/-!
# Programs over an interface of calls

A program is a tree of calls: each call names an operation of an
interface, and the rest of the program depends on the answer. What the
operations do is not part of the program, so that one translation of a
function serves every reading of it: run against arbitrary answers
(`Trace`), run in one process, or interleaved with other programs
(`Pool`). An interface is a type of operations `Op` with the type of
each operation's answer.
-/

namespace Interleave

/-- A program that calls the operations of an interface and returns an
`α`. -/
inductive Prog {Op : Type} (Resp : Op → Type) (α : Type) : Type where
  /-- The program has returned. -/
  | ret (a : α) : Prog Resp α
  /-- One call, and the rest of the program for each answer. -/
  | call (op : Op) (k : Resp op → Prog Resp α) : Prog Resp α

namespace Prog

variable {Op : Type} {Resp : Op → Type} {α β δ : Type}

/-- Run `p`, then `f` on what it returned. -/
def bind : Prog Resp α → (α → Prog Resp β) → Prog Resp β
  | ret a, f => f a
  | call op k, f => call op fun r => (k r).bind f

instance : Monad (Prog Resp) where
  pure := ret
  bind := bind

/-- The program that makes one call and returns its answer. -/
def op (o : Op) : Prog Resp (Resp o) := call o ret

@[simp] theorem pure_eq (a : α) : (pure a : Prog Resp α) = ret a := rfl

@[simp] theorem ret_bind (a : α) (f : α → Prog Resp β) : (ret a >>= f) = f a := rfl

@[simp] theorem call_bind (o : Op) (k : Resp o → Prog Resp α) (f : α → Prog Resp β) :
    (call o k >>= f) = call o fun r => k r >>= f := rfl

@[simp] theorem op_bind (o : Op) (f : Resp o → Prog Resp β) :
    (op o >>= f) = call o f := rfl

/-- Nothing is done after. -/
@[simp] theorem bind_ret (p : Prog Resp α) : (p >>= ret) = p := by
  induction p with
  | ret a => rfl
  | call o k ih => rw [call_bind]; congr 1; exact funext ih

/-- It does not matter how parts are put together. -/
@[simp] theorem bind_bind (p : Prog Resp α) (f : α → Prog Resp β) (g : β → Prog Resp δ) :
    (p >>= f) >>= g = p >>= fun a => f a >>= g := by
  induction p with
  | ret a => rfl
  | call o k ih => simp only [call_bind]; congr 1; exact funext ih

/-- `while let Some(x) = next()? { s = f(s, x) }`, with an error of
`next` passed on; after `fuel` rounds the loop fails as if `next` had. -/
def whileSome {ε ι σ : Type} (stop : ε) (next : Prog Resp (Except ε (Option ι)))
    (f : σ → ι → Prog Resp σ) : ℕ → σ → Prog Resp (Except ε σ)
  | 0, _ => ret (.error stop)
  | fuel + 1, s => next >>= fun
    | .error e => ret (.error e)
    | .ok none => ret (.ok s)
    | .ok (some x) => f s x >>= whileSome stop next f fuel

/-! ## Every call a program can make -/

/-- Whatever the answers, the program calls only operations in `φ`. -/
def Only (φ : Op → Prop) : Prog Resp α → Prop
  | ret _ => True
  | call o k => φ o ∧ ∀ r, (k r).Only φ

variable {φ ψ : Op → Prop}

@[simp] theorem only_ret (a : α) : (ret a : Prog Resp α).Only φ := trivial

theorem only_op {o : Op} (h : φ o) : (op o : Prog Resp (Resp o)).Only φ :=
  ⟨h, fun _ => trivial⟩

/-- Both parts call only operations in `φ`. -/
theorem Only.bind {p : Prog Resp α} {f : α → Prog Resp β} (hp : p.Only φ)
    (hf : ∀ a, (f a).Only φ) : (p >>= f).Only φ := by
  induction p with
  | ret a => exact hf a
  | call o k ih => exact ⟨hp.1, fun r => ih r (hp.2 r)⟩

/-- One call, and the rest. -/
theorem Only.step {o : Op} {f : Resp o → Prog Resp β} (ho : φ o) (hf : ∀ r, (f r).Only φ) :
    (op o >>= f).Only φ :=
  (only_op ho).bind hf

/-- Operations in `φ` are among others. -/
theorem Only.mono {p : Prog Resp α} (h : p.Only φ) (hφ : ∀ o, φ o → ψ o) : p.Only ψ := by
  induction p with
  | ret a => trivial
  | call o k ih => exact ⟨hφ _ h.1, fun r => ih r (h.2 r)⟩

/-- What is known of the calls in two ways is known together. -/
theorem Only.and {p : Prog Resp α} (h : p.Only φ) (h' : p.Only ψ) :
    p.Only fun o => φ o ∧ ψ o := by
  induction p with
  | ret a => trivial
  | call o k ih => exact ⟨⟨h.1, h'.1⟩, fun r => ih r (h.2 r) (h'.2 r)⟩

theorem only_true (p : Prog Resp α) : p.Only fun _ => True := by
  induction p with
  | ret a => trivial
  | call o k ih => exact ⟨trivial, ih⟩

/-- Whatever the answers, what the program returns satisfies `ρ`. -/
def Returns (ρ : α → Prop) : Prog Resp α → Prop
  | ret a => ρ a
  | call _ k => ∀ r, (k r).Returns ρ

variable {ρ : α → Prop} {ρ' : β → Prop}

theorem returns_true (p : Prog Resp α) : p.Returns fun _ => True := by
  induction p with
  | ret a => trivial
  | call o k ih => exact fun r => ih r

/-- What the first part returns is what the second goes on with. -/
theorem Returns.bind {p : Prog Resp α} {f : α → Prog Resp β} (hp : p.Returns ρ)
    (hf : ∀ a, ρ a → (f a).Returns ρ') : (p >>= f).Returns ρ' := by
  induction p with
  | ret a => exact hf a hp
  | call o k ih => exact fun r => ih r (hp r)

theorem Returns.mono {σ : α → Prop} {p : Prog Resp α} (hp : p.Returns ρ) (h : ∀ a, ρ a → σ a) :
    p.Returns σ := by
  induction p with
  | ret a => exact h a hp
  | call o k ih => exact fun r => ih r (hp r)

/-- One call, and the rest. -/
theorem Returns.step {o : Op} {f : Resp o → Prog Resp β} (hf : ∀ r, (f r).Returns ρ') :
    (op o >>= f).Returns ρ' :=
  hf

/-- What the first part returns may be used of the second. -/
theorem Only.bind_returns {p : Prog Resp α} {f : α → Prog Resp β} (hp : p.Only φ)
    (hr : p.Returns ρ) (hf : ∀ a, ρ a → (f a).Only φ) : (p >>= f).Only φ := by
  induction p with
  | ret a => exact hf a hr
  | call o k ih => exact ⟨hp.1, fun r => ih r (hp.2 r) (hr r)⟩

/-- A loop calls what its parts call. -/
theorem Only.whileSome {ε ι σ : Type} {stop : ε} {next : Prog Resp (Except ε (Option ι))}
    {f : σ → ι → Prog Resp σ} (hn : next.Only φ) (hf : ∀ s x, (f s x).Only φ) (fuel : ℕ)
    (s : σ) : (whileSome stop next f fuel s).Only φ := by
  induction fuel generalizing s with
  | zero => trivial
  | succ fuel ih =>
    refine hn.bind fun r => ?_
    rcases r with e | _ | x
    · trivial
    · trivial
    · exact (hf s x).bind ih

/-! ## One interface in terms of another -/

variable {Op' : Type} {Resp' : Op' → Type}

/-- Replace every call by the program that carries it out. -/
def lower (impl : (o : Op) → Prog Resp' (Resp o)) : Prog Resp α → Prog Resp' α
  | ret a => ret a
  | call o k => impl o >>= fun r => (k r).lower impl

variable (impl : (o : Op) → Prog Resp' (Resp o))

@[simp] theorem lower_ret (a : α) : (ret a : Prog Resp α).lower impl = ret a := rfl

@[simp] theorem lower_call (o : Op) (k : Resp o → Prog Resp α) :
    (call o k).lower impl = impl o >>= fun r => (k r).lower impl := rfl

@[simp] theorem lower_op (o : Op) : (op o : Prog Resp (Resp o)).lower impl = impl o :=
  bind_ret _

/-- Parts are carried out each by itself. -/
@[simp] theorem lower_bind (p : Prog Resp α) (f : α → Prog Resp β) :
    (p >>= f).lower impl = p.lower impl >>= fun a => (f a).lower impl := by
  induction p with
  | ret a => rfl
  | call o k ih => simp only [call_bind, lower_call, bind_bind, ih]

/-- And so are the rounds of a loop. -/
theorem lower_whileSome {ε ι σ : Type} (stop : ε) (next : Prog Resp (Except ε (Option ι)))
    (f : σ → ι → Prog Resp σ) (fuel : ℕ) (s : σ) : (whileSome stop next f fuel s).lower impl =
      whileSome stop (next.lower impl) (fun s x => (f s x).lower impl) fuel s := by
  induction fuel generalizing s with
  | zero => rfl
  | succ fuel ih =>
    simp only [whileSome, lower_bind]
    congr 1
    funext r
    rcases r with e | _ | x
    · rfl
    · rfl
    · simp only [lower_bind, ih]

/-- What is called is what the calls are carried out by. -/
theorem Only.lower {φ' : Op' → Prop} {p : Prog Resp α} (hp : p.Only φ)
    (himpl : ∀ o, φ o → (impl o).Only φ') : (p.lower impl).Only φ' := by
  induction p with
  | ret a => trivial
  | call o k ih => exact (himpl o hp.1).bind fun r => ih r (hp.2 r)

end Prog

end Interleave

import GhaConsumer.Interleave.Program
import Mathlib.Algebra.Group.Nat.Defs
import Mathlib.Data.List.Basic

/-!
# Programs against a server that does not change

Where every call is answered by a fixed function, what a program returns
is computed (`eval`). This module has the loops a client of a paginated
interface is made of, and what they come to on a fixed listing: `paged`
reads pages until one is short, and takes the whole listing
(`eval_paged`) — unless the page counter comes round before the listing
ends, and then it never returns (`eval_paged_of_long`).
-/

namespace Interleave

variable {Op : Type} {Resp : Op → Type} {α β ε ι σ : Type}

namespace Prog

/-! ## Loops -/

/-- `for x in xs { s = f(s, x)?; }`. -/
def forEach (f : σ → ι → Prog Resp (Except ε σ)) : List ι → σ → Prog Resp (Except ε σ)
  | [], s => ret (.ok s)
  | x :: xs, s => f s x >>= fun
    | .error e => ret (.error e)
    | .ok s => forEach f xs s

/-- `loop { let body = get(page)?; s = use(s, body)?;
if body.len() < size { break } page += 1; }`, where the counter comes
round at its width; after `fuel` rounds the loop fails with `stop`. -/
def paged (size : ℕ) (stop : ε) (get : UInt32 → Prog Resp (Except ε (List ι)))
    (use : σ → List ι → Prog Resp (Except ε σ)) : ℕ → UInt32 → σ → Prog Resp (Except ε σ)
  | 0, _, _ => ret (.error stop)
  | fuel + 1, page, s => get page >>= fun
    | .error e => ret (.error e)
    | .ok body => use s body >>= fun
      | .error e => ret (.error e)
      | .ok s => if body.length < size then ret (.ok s) else paged size stop get use fuel (page + 1) s

/-! ## Fixed answers -/

variable {answer : (o : Op) → Resp o}

/-- What the program returns. -/
def eval (answer : (o : Op) → Resp o) : Prog Resp α → α
  | ret a => a
  | call o k => (k (answer o)).eval answer

@[simp] theorem eval_ret (a : α) : (ret a : Prog Resp α).eval answer = a := rfl

@[simp] theorem eval_op (o : Op) : (op o : Prog Resp (Resp o)).eval answer = answer o := rfl

@[simp] theorem eval_bind (p : Prog Resp α) (f : α → Prog Resp β) :
    (p >>= f).eval answer = (f (p.eval answer)).eval answer := by
  induction p with
  | ret a => rfl
  | call o k ih => exact ih (answer o)

/-- A loop no round of which fails folds its body. -/
theorem eval_forEach {f : σ → ι → Prog Resp (Except ε σ)} {g : σ → ι → σ} {xs : List ι}
    (h : ∀ s, ∀ x ∈ xs, (f s x).eval answer = .ok (g s x)) (s : σ) :
    (forEach f xs s).eval answer = .ok (xs.foldl g s) := by
  induction xs generalizing s with
  | nil => rfl
  | cons x xs ih =>
    rw [forEach, eval_bind, h s x List.mem_cons_self]
    exact ih (fun s y hy => h s y (List.mem_cons_of_mem _ hy)) (g s x)

/-! ## Pages -/

/-- The page of a listing, counted from 1; page 0 is the first again. -/
def pageOf (size : ℕ) (l : List ι) (page : UInt32) : List ι :=
  (l.drop (size * (page.toNat - 1))).take size

variable {size fuel : ℕ} {stop : ε} {get : UInt32 → Prog Resp (Except ε (List ι))}
variable {use : σ → List ι → Prog Resp (Except ε σ)} {l : List ι} {page : UInt32}

/-- From a page on, the loop takes the rest of the listing. -/
theorem eval_paged_from {g : σ → List ι → σ} (hsize : 0 < size)
    (hget : ∀ p, (get p).eval answer = .ok (pageOf size l p))
    (huse : ∀ s xs, (∀ x ∈ xs, x ∈ l) → (use s xs).eval answer = .ok (g s xs))
    (happ : ∀ s xs ys, g (g s xs) ys = g s (xs ++ ys)) {rest : List ι}
    (hrest : rest = l.drop (size * (page.toNat - 1))) (hpage : 0 < page.toNat)
    (hfuel : rest.length / size < fuel) (hshort : page.toNat + rest.length / size < 2 ^ 32) (s : σ) :
    (paged size stop get use fuel page s).eval answer = .ok (g s rest) := by
  induction fuel generalizing page s rest with
  | zero => exact absurd hfuel (Nat.not_lt_zero _)
  | succ fuel ih =>
    have hread : pageOf size l page = rest.take size := by rw [pageOf, hrest]
    have hin : ∀ x ∈ rest.take size, x ∈ l := by
      intro x hx
      rw [hrest] at hx
      exact List.mem_of_mem_drop (List.mem_of_mem_take hx)
    rw [paged, eval_bind, hget, hread]
    dsimp only
    rw [eval_bind, huse s _ hin]
    dsimp only
    by_cases hlast : rest.length < size
    · rw [List.take_of_length_le (by omega), if_pos hlast]
      rfl
    · -- a full page: the counter is below its last value, since a page is left
      have hfull : ¬ (rest.take size).length < size := by
        rw [List.length_take]
        omega
      have hone : (rest.drop size).length / size + 1 = rest.length / size := by
        rw [List.length_drop, Nat.div_eq_sub_div hsize (Nat.le_of_not_lt hlast)]
      have hpos : 0 < rest.length / size := Nat.div_pos (Nat.le_of_not_lt hlast) hsize
      have hnext : (page + 1).toNat = page.toNat + 1 := by
        rw [UInt32.toNat_add]
        exact Nat.mod_eq_of_lt (by rw [show (1 : UInt32).toNat = 1 from rfl]; omega)
      have hdrop : rest.drop size = l.drop (size * ((page + 1).toNat - 1)) := by
        rw [hrest, List.drop_drop, hnext]
        congr 1
        rw [← Nat.mul_succ]
        congr 1
        omega
      rw [if_neg hfull, ih hdrop (by omega) (by omega) (by omega), happ, List.take_append_drop]

/-- **The whole listing.** A listing that ends before the counter comes
round is taken page by page to its end. -/
theorem eval_paged {g : σ → List ι → σ} (hsize : 0 < size)
    (hget : ∀ p, (get p).eval answer = .ok (pageOf size l p))
    (huse : ∀ s xs, (∀ x ∈ xs, x ∈ l) → (use s xs).eval answer = .ok (g s xs))
    (happ : ∀ s xs ys, g (g s xs) ys = g s (xs ++ ys))
    (hshort : l.length < size * (2 ^ 32 - 1)) (hfuel : 2 ^ 32 ≤ fuel) (s : σ) :
    (paged size stop get use fuel 1 s).eval answer = .ok (g s l) := by
  have hpages : l.length / size < 2 ^ 32 - 1 := Nat.div_lt_of_lt_mul hshort
  have hrest : l = l.drop (size * ((1 : UInt32).toNat - 1)) := rfl
  have hone : (1 : UInt32).toNat = 1 := rfl
  exact eval_paged_from hsize hget huse happ hrest (by decide) (by omega) (by omega) s

/-- **The counter comes round.** On a longer listing every page is full,
and the loop runs on. -/
theorem eval_paged_of_long {g : σ → List ι → σ}
    (hget : ∀ p, (get p).eval answer = .ok (pageOf size l p))
    (huse : ∀ s xs, (∀ x ∈ xs, x ∈ l) → (use s xs).eval answer = .ok (g s xs))
    (hlong : size * (2 ^ 32 - 1) ≤ l.length) (fuel : ℕ) (page : UInt32) (s : σ) :
    (paged size stop get use fuel page s).eval answer = .error stop := by
  induction fuel generalizing page s with
  | zero => rfl
  | succ fuel ih =>
    have hin : ∀ x ∈ pageOf size l page, x ∈ l := fun x hx =>
      List.mem_of_mem_drop (List.mem_of_mem_take hx)
    have hfull : ¬ (pageOf size l page).length < size := by
      have hpage : page.toNat - 1 + 1 ≤ 2 ^ 32 - 1 := by
        have := page.toNat_lt
        omega
      have hend := Nat.mul_le_mul_left size hpage
      rw [pageOf, List.length_take, List.length_drop, Nat.mul_add] at *
      omega
    rw [paged, eval_bind, hget]
    dsimp only
    rw [eval_bind, huse s _ hin]
    dsimp only
    rw [if_neg hfull]
    exact ih (page + 1) _

end Prog

end Interleave

import GhaConsumer.Interleave.Pool

/-!
# Waiting up a ladder

Threads that hold resources and wait for others do not wait for one
another for ever where the resources are ranked and each thread waits only
for one above all it holds: every chain of waits is shorter than the
ladder is high, and ends with a thread that can move (`Ladder.resolves`).
-/

namespace Interleave

open Relation

/-! ## Threads that can move -/

section Able

variable {Op : Type} {Resp : Op → Type} {Task World : Type}

/-- The thread that makes the move of its own accord. -/
def Machine.Move.actor {M : Machine Resp Task World} : M.Move → Option Tid
  | .call t _ | .again t | .exit t => some t
  | .crash _ | .env _ => none

/-- The thread has a move to make. -/
def Machine.Able (M : Machine Resp Task World) (c : Config Resp Task World) (t : Tid) : Prop :=
  ∃ m : M.Move, m.actor = some t ∧ (M.move c m).isSome

variable {M : Machine Resp Task World} {c : Config Resp Task World} {t : Tid} {k : Task}

/-- A thread at the end of its body can always go on. -/
theorem Machine.able_of_ret {next : Option Task} (h : c.threads t = some (k, .ret next)) :
    M.Able c t := by
  cases next with
  | none => exact ⟨.exit t, rfl, by simp only [Machine.move, h, Option.isSome_some]⟩
  | some k' => exact ⟨.again t, rfl, by simp only [Machine.move, h, Option.isSome_some]⟩

/-- A thread whose call has an answer can make it. -/
theorem Machine.able_of_call {o : Op} {f : Resp o → Prog Resp (Option Task)} {q : M.Oracle o}
    {r : Resp o} {w : World} (h : c.threads t = some (k, .call o f))
    (q₀ : (o : Op) → M.Oracle o) (hq₀ : q₀ o = q) (hs : M.step t o q c.world = some (r, w))
    (hnew : ∀ u k', M.forks o r = some (u, k') → c.next ≤ u) : M.Able c t := by
  refine ⟨.call t q₀, rfl, ?_⟩
  subst hq₀
  simp only [Machine.move, h, hs]
  split
  · rename_i u k' hf
    rw [if_pos (hnew u k' hf)]
    rfl
  · rfl

end Able

/-! ## Ladders -/

variable {T R : Type}

/-- `t` waits for something `u` holds. -/
def WaitsOn (waits holds : T → R → Prop) (t u : T) : Prop := ∃ r, waits t r ∧ holds u r

/-- Resources in ranks below `height`, and those who wait for them and hold
them. -/
structure Ladder (awake able : T → Prop) (waits holds : T → R → Prop) (rank : R → ℕ)
    (height : ℕ) : Prop where
  /-- Who is awake can move, or waits for a resource. -/
  wakes : ∀ t, awake t → able t ∨ ∃ r, waits t r
  /-- What is waited for is held. -/
  held : ∀ t r, waits t r → ∃ u, holds u r
  /-- Who holds something is awake. -/
  holder : ∀ u r, holds u r → awake u
  /-- Who waits, waits for something above all it holds. -/
  up : ∀ u r r', holds u r → waits u r' → rank r < rank r'
  below : ∀ r, rank r < height

variable {awake able : T → Prop} {waits holds : T → R → Prop} {rank : R → ℕ} {height : ℕ}

namespace Ladder

/-- Whoever holds something `n` rungs from the top can move, or waits on
one who can. -/
theorem resolves_of_holds (h : Ladder awake able waits holds rank height) (n : ℕ) {u : T} {r : R}
    (hu : holds u r) (hn : height ≤ rank r + n) :
    ∃ v, ReflTransGen (WaitsOn waits holds) u v ∧ able v := by
  induction n generalizing u r with
  | zero =>
    have := h.below r
    omega
  | succ n ih =>
    rcases h.wakes u (h.holder u r hu) with hable | ⟨r', hw⟩
    · exact ⟨u, .refl, hable⟩
    · obtain ⟨v, hv⟩ := h.held u r' hw
      have hup := h.up u r r' hu hw
      obtain ⟨x, hvx, hable⟩ := ih hv (by omega)
      exact ⟨x, .head ⟨r', hw, hv⟩ hvx, hable⟩

/-- **Every chain of waits ends with one who can move.** -/
theorem resolves (h : Ladder awake able waits holds rank height) {t : T} (ht : awake t) :
    ∃ u, ReflTransGen (WaitsOn waits holds) t u ∧ able u := by
  rcases h.wakes t ht with hable | ⟨r, hw⟩
  · exact ⟨t, .refl, hable⟩
  · obtain ⟨u, hu⟩ := h.held t r hw
    obtain ⟨v, huv, hable⟩ := h.resolves_of_holds height hu (by omega)
    exact ⟨v, .head ⟨r, hw, hu⟩ huv, hable⟩

/-- Nobody waits on itself, through however many others. -/
theorem irrefl (h : Ladder awake able waits holds rank height) {t : T} :
    ¬ TransGen (WaitsOn waits holds) t t := by
  -- the last of a chain holds something at or above all the first waits for
  have hrank : ∀ {u}, TransGen (WaitsOn waits holds) t u →
      ∃ r r', waits t r ∧ holds u r' ∧ rank r ≤ rank r' := by
    intro u hu
    induction hu with
    | single hu =>
      obtain ⟨r, hw, hh⟩ := hu
      exact ⟨r, r, hw, hh, Nat.le_refl _⟩
    | tail _ hu ih =>
      obtain ⟨r, r', hw, hh, hle⟩ := ih
      obtain ⟨s, hw', hh'⟩ := hu
      have hup := h.up _ _ _ hh hw'
      exact ⟨r, s, hw, hh', by omega⟩
  intro ht
  obtain ⟨r, r', hw, hh, hle⟩ := hrank ht
  have := h.up _ _ _ hh hw
  omega

end Ladder

end Interleave

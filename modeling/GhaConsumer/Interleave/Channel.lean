import GhaConsumer.Interleave.Pool

/-!
# Bounded channels

A channel hands on what is sent into it, first in, first out, and has room
for so many items; a thread that finds no room waits. Where the calls of a
machine use a channel of its world (`Carries`), what has been sent in a
run is what has been received and what still waits, in that order
(`Carries.run`): nothing is lost, doubled or overtaken on the way.
-/

namespace Interleave

variable {Op : Type} {Resp : Op → Type} {Task World α : Type} {room : ℕ}

/-- What waits in a channel with room for so many, the first in front. -/
structure Channel (α : Type) (room : ℕ) where
  waiting : List α
  bounded : waiting.length ≤ room

namespace Channel

def empty : Channel α room := ⟨[], Nat.zero_le room⟩

/-- One more behind the others, where there is room. -/
def send (ch : Channel α room) (a : α) : Option (Channel α room) :=
  if h : ch.waiting.length < room then
    some ⟨ch.waiting ++ [a], by rw [List.length_append]; exact h⟩
  else none

/-- The first, and the others without it. -/
def recv : Channel α room → Option (α × Channel α room)
  | ⟨[], _⟩ => none
  | ⟨a :: as, h⟩ => some (a, ⟨as, Nat.le_of_succ_le h⟩)

variable {ch ch' : Channel α room} {a : α}

theorem waiting_of_send (h : ch.send a = some ch') : ch'.waiting = ch.waiting ++ [a] := by
  unfold send at h
  split at h
  · cases h
    rfl
  · cases h

theorem waiting_of_recv (h : ch.recv = some (a, ch')) : ch.waiting = a :: ch'.waiting := by
  obtain ⟨as, hbounded⟩ := ch
  cases as with
  | nil => cases h
  | cons b bs =>
    cases h
    rfl

/-! ## In a pool -/

/-- What a call does with a channel. -/
inductive Use (α : Type) where
  | sent (a : α)
  | received (a : α)

/-- The channel before and after such a use, or none. -/
def After : Option (Use α) → Channel α room → Channel α room → Prop
  | none, ch, ch' => ch' = ch
  | some (.sent a), ch, ch' => ch.send a = some ch'
  | some (.received a), ch, ch' => ch.recv = some (a, ch')

section Items

variable (use : (o : Op) → Resp o → Option (Use α))

/-- What has been sent, the first in front. -/
def sent : List (Entry Resp Task World) → List α
  | [] => []
  | .did _ _ o r _ :: τ =>
    match use o r with
    | some (.sent a) => sent τ ++ [a]
    | _ => sent τ
  | .ended .. :: τ => sent τ

/-- What has been received, the first in front. -/
def received : List (Entry Resp Task World) → List α
  | [] => []
  | .did _ _ o r _ :: τ =>
    match use o r with
    | some (.received a) => received τ ++ [a]
    | _ => received τ
  | .ended .. :: τ => received τ

end Items

variable {use : (o : Op) → Resp o → Option (Use α)} {σ τ : List (Entry Resp Task World)}

theorem sent_append : sent use (σ ++ τ) = sent use τ ++ sent use σ := by
  induction σ with
  | nil => exact (List.append_nil _).symm
  | cons e σ ih =>
    cases e with
    | ended => exact ih
    | did t k o r w =>
      rw [List.cons_append, sent, sent]
      split <;> simp only [ih, List.append_assoc]

theorem received_append : received use (σ ++ τ) = received use τ ++ received use σ := by
  induction σ with
  | nil => exact (List.append_nil _).symm
  | cons e σ ih =>
    cases e with
    | ended => exact ih
    | did t k o r w =>
      rw [List.cons_append, received, received]
      split <;> simp only [ih, List.append_assoc]

/-- What a line says was sent has been sent. -/
theorem mem_sent {t : Tid} {k : Task} {o : Op} {r : Resp o} {w : World}
    (h : .did t k o r w ∈ τ) (hu : use o r = some (.sent a)) : a ∈ sent use τ := by
  obtain ⟨ρ, υ, rfl⟩ := List.append_of_mem h
  rw [sent_append, sent, hu]
  exact List.mem_append_left _ (List.mem_append_right _ List.mem_cons_self)

variable {M : Machine Resp Task World} {view : World → Channel α room}
variable {Meets : Shared Resp Task World → Entry Resp Task World → Prop}
variable {c₀ c₁ c : Config Resp Task World}

/-- The machine's world has a channel, which the calls use as they say and
nothing else touches. -/
structure Carries (M : Machine Resp Task World) (view : World → Channel α room)
    (use : (o : Op) → Resp o → Option (Use α)) : Prop where
  step : ∀ {t : Tid} {o : Op} {q : M.Oracle o} {r : Resp o} {w w' : World},
    M.step t o q w = some (r, w') → After (use o r) (view w) (view w')
  leave : ∀ {t : Tid} {w : World}, view (M.leave t w) = view w
  crash : ∀ {t : Tid} {w w' : World}, M.crash t w = some w' → view w' = view w
  env : ∀ {e : M.Env} {w w' : World}, M.env e w = some w' → view w' = view w

/-- One step hands nothing on out of turn. -/
theorem Carries.next (h : Carries M view use) {e : Option (Entry Resp Task World)}
    (hs : M.Step c₁ e c) {as : List α}
    (ih : as ++ sent use c₁.trace = received use c₁.trace ++ (view c₁.world).waiting) :
    as ++ sent use c.trace = received use c.trace ++ (view c.world).waiting := by
  cases hs with
  | @call t k o f q r w hat hq hnew =>
    have hafter := h.step hq
    simp only [Shared.called, sent, received]
    cases hu : use o r with
    | none =>
      rw [hu] at hafter
      simp only [show view w = view c₁.world from hafter]
      exact ih
    | some u =>
      rw [hu] at hafter
      cases u with
      | sent a =>
        simp only [waiting_of_send hafter]
        rw [← List.append_assoc, ih, List.append_assoc]
      | received a =>
        simp only
        rw [ih, waiting_of_recv hafter, List.append_assoc, List.singleton_append]
  | again hat => exact ih
  | exit hat =>
    simp only [Shared.ended, sent, received, h.leave]
    exact ih
  | crash hat hw =>
    simp only [Shared.ended, sent, received, h.crash hw]
    exact ih
  | env hw =>
    simp only [h.env hw]
    exact ih

/-- **Nothing is lost, doubled or overtaken**: what waited at the start
and what has been sent since is what has been received and what waits. -/
theorem Carries.run (h : Carries M view use) (h₀ : c₀.trace = []) (hr : M.Run Meets c₀ c) :
    (view c₀.world).waiting ++ sent use c.trace =
      received use c.trace ++ (view c.world).waiting := by
  induction hr with
  | start => rw [h₀, sent, received, List.append_nil, List.nil_append]
  | step _ hs _ ih => exact h.next hs ih

/-- So it is of the rest of a run. -/
theorem Carries.rest (h : Carries M view use) (h₀ : c₀.trace = []) (hr₁ : M.Run Meets c₀ c₁)
    (hr : M.Run Meets c₀ c) (hτ : c.trace = σ ++ c₁.trace) :
    (view c₁.world).waiting ++ sent use σ = received use σ ++ (view c.world).waiting := by
  have hbefore := h.run h₀ hr₁
  have hafter := h.run h₀ hr
  rw [hτ, sent_append, received_append, ← List.append_assoc, hbefore, List.append_assoc,
    List.append_assoc] at hafter
  exact List.append_cancel_left hafter

/-- What has been sent since has been received since, or waits. -/
theorem Carries.handed (h : Carries M view use) (h₀ : c₀.trace = []) (hr₁ : M.Run Meets c₀ c₁)
    (hr : M.Run Meets c₀ c) (hτ : c.trace = σ ++ c₁.trace) (ha : a ∈ sent use σ) :
    a ∈ received use σ ∨ a ∈ (view c.world).waiting :=
  List.mem_append.mp (h.rest h₀ hr₁ hr hτ ▸ List.mem_append_right _ ha)

end Channel

end Interleave

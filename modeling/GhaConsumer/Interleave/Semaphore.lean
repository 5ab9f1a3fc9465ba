import Mathlib.Algebra.GroupWithZero.Nat
import Mathlib.Data.List.Basic
import Mathlib.Data.Nat.Notation

/-!
# Fair semaphores

A semaphore whose waiters collect. Who acquires `n` permits takes what is
free at once and joins the queue for the rest; a permit that is given back
goes to the first who still lacks one, and only what nobody lacks is
available. So all permits are somewhere, and none is available while
somebody waits for more (`Step.inv`).
-/

namespace Interleave

namespace Semaphore

variable {α : Type}

/-- An acquire that has not returned: how many permits it is for, and how
many it has collected. -/
structure Waiter (α : Type) where
  who : α
  wants : ℕ
  got : ℕ
  deriving DecidableEq

structure State (α : Type) where
  available : ℕ
  /-- Who holds a permit, once for each. -/
  holders : List α
  /-- The acquires that have not returned, the first in front. -/
  waiters : List (Waiter α)
  deriving DecidableEq

/-! ## Giving -/

/-- Permits given to waiters in their order: what is left, and the
waiters. -/
def give : ℕ → List (Waiter α) → ℕ × List (Waiter α)
  | k, [] => (k, [])
  | k, w :: ws =>
    let taken := min k (w.wants - w.got)
    let (rest, ws') := give (k - taken) ws
    (rest, { w with got := w.got + taken } :: ws')

variable {k j : ℕ} {w : Waiter α} {ws ws' : List (Waiter α)}

@[simp] theorem give_nil (k : ℕ) : give k ([] : List (Waiter α)) = (k, []) := rfl

@[simp] theorem give_cons (k : ℕ) (w : Waiter α) (ws : List (Waiter α)) :
    give k (w :: ws) = ((give (k - min k (w.wants - w.got)) ws).1,
      { w with got := w.got + min k (w.wants - w.got) } ::
        (give (k - min k (w.wants - w.got)) ws).2) := rfl

@[simp] theorem give_zero (ws : List (Waiter α)) : give 0 ws = (0, ws) := by
  induction ws with
  | nil => rfl
  | cons w ws ih => simp [ih]

/-- Giving twice is giving the sum. -/
theorem give_add (k j : ℕ) (ws : List (Waiter α)) :
    give (k + j) ws =
      ((give j (give k ws).2).1 + (give k ws).1, (give j (give k ws).2).2) := by
  induction ws generalizing k j with
  | nil => simp [Nat.add_comm]
  | cons w ws ih =>
    have htaken : min (k + j) (w.wants - w.got) = min k (w.wants - w.got) +
        min j (w.wants - (w.got + min k (w.wants - w.got))) := by omega
    have hrest : k + j - min (k + j) (w.wants - w.got) = (k - min k (w.wants - w.got)) +
        (j - min j (w.wants - (w.got + min k (w.wants - w.got)))) := by omega
    simp only [give_cons]
    rw [hrest, ih, htaken, Nat.add_assoc]

theorem give_append (k : ℕ) (ws ws' : List (Waiter α)) :
    give k (ws ++ ws') = ((give (give k ws).1 ws').1, (give k ws).2 ++ (give (give k ws).1 ws').2) := by
  induction ws generalizing k with
  | nil => simp
  | cons w ws ih => simp [ih]

/-- The permits collected. -/
def collected (ws : List (Waiter α)) : ℕ := (ws.map Waiter.got).sum

@[simp] theorem collected_nil : collected ([] : List (Waiter α)) = 0 := rfl

@[simp] theorem collected_cons (w : Waiter α) (ws : List (Waiter α)) :
    collected (w :: ws) = w.got + collected ws := List.sum_cons

theorem collected_append (ws ws' : List (Waiter α)) :
    collected (ws ++ ws') = collected ws + collected ws' := by
  simp [collected]

/-- Nothing is lost in giving. -/
theorem give_total (k : ℕ) (ws : List (Waiter α)) :
    (give k ws).1 + collected (give k ws).2 = k + collected ws := by
  induction ws generalizing k with
  | nil => rfl
  | cons w ws ih =>
    have hrest := ih (k - min k (w.wants - w.got))
    simp only [give_cons, collected_cons]
    omega

/-- Nobody has more than they want. -/
def Fitting (ws : List (Waiter α)) : Prop := ∀ w ∈ ws, w.got ≤ w.wants

theorem give_fitting (h : Fitting ws) : Fitting (give k ws).2 := by
  induction ws generalizing k with
  | nil => exact h
  | cons w ws ih =>
    obtain ⟨hw, hws⟩ := List.forall_mem_cons.mp h
    refine List.forall_mem_cons.mpr ⟨?_, ih hws⟩
    show w.got + min k (w.wants - w.got) ≤ w.wants
    omega

/-- Nothing is left over while somebody wants more; and who wants more
wanted more before. -/
theorem give_wanting (h : ∃ w ∈ (give k ws).2, w.got < w.wants) :
    (give k ws).1 = 0 ∧ ∃ w ∈ ws, w.got < w.wants := by
  induction ws generalizing k with
  | nil =>
    obtain ⟨w, hw, -⟩ := h
    cases hw
  | cons w ws ih =>
    obtain ⟨w', hw', hlt⟩ := h
    rcases List.mem_cons.mp hw' with rfl | hw'
    · have hlt : w.got + min k (w.wants - w.got) < w.wants := hlt
      have hzero : k - min k (w.wants - w.got) = 0 := by omega
      refine ⟨?_, w, List.mem_cons_self, by omega⟩
      simp only [give_cons, hzero, give_zero]
    · obtain ⟨hzero, w'', hmem, hlt⟩ := ih ⟨w', hw', hlt⟩
      exact ⟨hzero, w'', List.mem_cons_of_mem _ hmem, hlt⟩

/-! ## Steps -/

namespace State

variable (s : State α)

/-- Who owns a permit, once for each: its holder, or who has collected
it. -/
def owners : List α := s.holders ++ s.waiters.flatMap fun w => .replicate w.got w.who

theorem length_owners : s.owners.length = s.holders.length + collected s.waiters := by
  unfold owners collected
  rw [List.length_append, List.length_flatMap]
  congr 2
  exact List.map_congr_left fun w _ => List.length_replicate

/-- Permits are given back. -/
def restore (k : ℕ) : State α where
  available := s.available + (give k s.waiters).1
  holders := s.holders
  waiters := (give k s.waiters).2

/-- The first poll of an acquire. -/
def join (a : α) (n : ℕ) : State α where
  available := s.available - min s.available n
  holders := s.holders
  waiters := s.waiters ++ [⟨a, n, min s.available n⟩]

variable [DecidableEq α]

/-- A holder gives a permit back. -/
def release (a : α) : State α := { s with holders := s.holders.erase a }.restore 1

/-- The acquires of `a` are dropped, with what they have collected. -/
def cancel (a : α) : State α :=
  { s with waiters := s.waiters.filter fun w => w.who ≠ a }.restore
    (collected (s.waiters.filter fun w => w.who = a))

end State

/-- All permits are somewhere, and none is available while somebody waits
for more. -/
structure Inv (n : ℕ) (s : State α) : Prop where
  total : s.available + s.holders.length + collected s.waiters = n
  fitting : Fitting s.waiters
  wanting : (∃ w ∈ s.waiters, w.got < w.wants) → s.available = 0

theorem Inv.restore {n : ℕ} {s : State α} (h : s.available + s.holders.length +
    collected s.waiters + k = n) (hfit : Fitting s.waiters)
    (hwant : (∃ w ∈ s.waiters, w.got < w.wants) → s.available = 0) : Inv n (s.restore k) where
  total := by
    have htotal := give_total k s.waiters
    show s.available + (give k s.waiters).1 + s.holders.length + collected (give k s.waiters).2 = n
    omega
  fitting := give_fitting hfit
  wanting hw := by
    obtain ⟨hzero, hbefore⟩ := give_wanting hw
    show s.available + (give k s.waiters).1 = 0
    rw [hzero, hwant hbefore]

theorem collected_eq_zero (h : ∀ w ∈ ws, w.got = 0) : collected ws = 0 := by
  induction ws with
  | nil => rfl
  | cons w ws ih =>
    obtain ⟨hw, hws⟩ := List.forall_mem_cons.mp h
    rw [collected_cons, hw, ih hws]

theorem mem_append_cons_of_mem {w' : Waiter α} (h : w' ∈ ws ++ ws') : w' ∈ ws ++ w :: ws' := by
  rcases List.mem_append.mp h with h | h
  · exact List.mem_append_left _ h
  · exact List.mem_append_right _ (List.mem_cons_of_mem _ h)

theorem collected_filter (p : Waiter α → Bool) (ws : List (Waiter α)) :
    collected (ws.filter p) + collected (ws.filter fun w => !p w) = collected ws := by
  induction ws with
  | nil => rfl
  | cons w ws ih =>
    cases hp : p w <;> simp [hp] <;> omega

variable [DecidableEq α] {s s' : State α}

/-- What happens to a semaphore. -/
inductive Step : State α → State α → Prop
  | join (s : State α) (a : α) (n : ℕ) : Step s (s.join a n)
  /-- An acquire that has all it wants returns. -/
  | resume {s : State α} {w : Waiter α} {ws ws' : List (Waiter α)} :
      s.waiters = ws ++ w :: ws' → w.got = w.wants →
      Step s { s with holders := .replicate w.wants w.who ++ s.holders, waiters := ws ++ ws' }
  /-- A permit that is available is taken. -/
  | take {s : State α} (a : α) : 0 < s.available →
      Step s { s with available := s.available - 1, holders := a :: s.holders }
  | release {s : State α} {a : α} : a ∈ s.holders → Step s (s.release a)
  /-- A holder hands its permit over. -/
  | handOver {s : State α} {a : α} (b : α) : a ∈ s.holders →
      Step s { s with holders := b :: s.holders.erase a }
  /-- An acquire is dropped, with what it has collected. -/
  | drop {s : State α} {w : Waiter α} {ws ws' : List (Waiter α)} :
      s.waiters = ws ++ w :: ws' → Step s ({ s with waiters := ws ++ ws' }.restore w.got)
  | cancel (s : State α) (a : α) : Step s (s.cancel a)

/-- **One step loses no permit and leaves none idle.** -/
theorem Step.inv {n : ℕ} (h : Inv n s) (hs : Step s s') : Inv n s' := by
  obtain ⟨htotal, hfit, hwant⟩ := h
  cases hs with
  | join a m =>
    -- what is free is collected at once; a waiter is short only where nothing is left
    refine ⟨?_, ?_, ?_⟩
    · show s.available - min s.available m + s.holders.length + collected (s.waiters ++ [_]) = n
      rw [collected_append, collected_cons, collected_nil]
      show _ + _ + (_ + (min s.available m + 0)) = n
      omega
    · intro w hw
      rcases List.mem_append.mp hw with hw | hw
      · exact hfit w hw
      · rw [List.mem_singleton.mp hw]
        exact Nat.min_le_right _ _
    · rintro ⟨w, hw, hlt⟩
      show s.available - min s.available m = 0
      rcases List.mem_append.mp hw with hw | hw
      · have hzero := hwant ⟨w, hw, hlt⟩
        omega
      · rw [List.mem_singleton.mp hw] at hlt
        have hlt : min s.available m < m := hlt
        omega
  | @resume w ws ws' hws hsated =>
    -- what the waiter had collected is now held
    rw [hws] at htotal hfit hwant
    refine ⟨?_, fun w' hw' => hfit w' (mem_append_cons_of_mem hw'), fun ⟨w', hw', hlt⟩ =>
      hwant ⟨w', mem_append_cons_of_mem hw', hlt⟩⟩
    rw [collected_append, collected_cons] at htotal
    show s.available + (List.replicate w.wants w.who ++ s.holders).length + collected (ws ++ ws') = n
    rw [collected_append, List.length_append, List.length_replicate]
    omega
  | take a hpos =>
    refine ⟨?_, hfit, fun hw => ?_⟩
    · show s.available - 1 + (s.holders.length + 1) + collected s.waiters = n
      omega
    · have hzero := hwant hw
      omega
  | @release a ha =>
    have hlen := List.length_erase_of_mem ha
    have hpos := List.length_pos_of_mem ha
    refine Inv.restore ?_ hfit hwant
    show s.available + (s.holders.erase a).length + collected s.waiters + 1 = n
    omega
  | @handOver a b ha =>
    have hlen := List.length_erase_of_mem ha
    have hpos := List.length_pos_of_mem ha
    refine ⟨?_, hfit, hwant⟩
    show s.available + ((s.holders.erase a).length + 1) + collected s.waiters = n
    omega
  | @drop w ws ws' hws =>
    rw [hws] at htotal hfit hwant
    rw [collected_append, collected_cons] at htotal
    refine Inv.restore ?_ (fun w' hw' => hfit w' (mem_append_cons_of_mem hw'))
      fun ⟨w', hw', hlt⟩ => hwant ⟨w', mem_append_cons_of_mem hw', hlt⟩
    show s.available + s.holders.length + collected (ws ++ ws') + w.got = n
    rw [collected_append]
    omega
  | cancel a =>
    -- what all its waiters had collected goes back together
    have hsplit := collected_filter (fun w => decide (w.who = a)) s.waiters
    refine Inv.restore ?_ (fun w hw => hfit w (List.mem_of_mem_filter hw))
      fun ⟨w, hw, hlt⟩ => hwant ⟨w, List.mem_of_mem_filter hw, hlt⟩
    show s.available + s.holders.length + collected (s.waiters.filter fun w => w.who ≠ a) +
      collected (s.waiters.filter fun w => w.who = a) = n
    simp only [decide_not] at hsplit ⊢
    omega

/-! ## Semaphores by what they owe

The holders and the queue determine the rest: what is free goes to those
in the queue, in their order. -/

/-- An acquire that has collected nothing. -/
def fresh (request : α × ℕ) : Waiter α := ⟨request.1, request.2, 0⟩

/-- The semaphore of `n` permits with these holders and this queue. -/
def serve (n : ℕ) (holders : List α) (queue : List (α × ℕ)) : State α where
  available := (give (n - holders.length) (queue.map fresh)).1
  holders := holders
  waiters := (give (n - holders.length) (queue.map fresh)).2

variable {n m : ℕ} {holders : List α} {queue : List (α × ℕ)} {a : α}

omit [DecidableEq α] in
theorem give_requests (k : ℕ) (ws : List (Waiter α)) :
    (give k ws).2.map (fun w => (w.who, w.wants)) = ws.map fun w => (w.who, w.wants) := by
  induction ws generalizing k with
  | nil => rfl
  | cons w ws ih =>
    simp only [give_cons, List.map_cons]
    rw [ih]

omit [DecidableEq α] in
/-- The waiters are those of the queue. -/
theorem serve_requests (n : ℕ) (holders : List α) (queue : List (α × ℕ)) :
    (serve n holders queue).waiters.map (fun w => (w.who, w.wants)) = queue := by
  unfold serve
  rw [give_requests, List.map_map]
  exact List.map_id _

omit [DecidableEq α] in
theorem serve_join : serve n holders (queue ++ [(a, m)]) = (serve n holders queue).join a m := by
  simp [serve, State.join, give_append, fresh]

theorem serve_release (hle : holders.length ≤ n) (ha : a ∈ holders) :
    serve n (holders.erase a) queue = (serve n holders queue).release a := by
  have hlen := List.length_erase_of_mem ha
  have hpos := List.length_pos_of_mem ha
  have hfree : n - (holders.erase a).length = n - holders.length + 1 := by omega
  simp only [serve, State.release, State.restore, hfree, give_add, Nat.add_comm]

theorem serve_handOver (b : α) (ha : a ∈ holders) :
    Step (serve n holders queue) (serve n (b :: holders.erase a) queue) := by
  have hlen := List.length_erase_of_mem ha
  have hpos := List.length_pos_of_mem ha
  have hfree : n - (b :: holders.erase a).length = n - holders.length := by
    rw [List.length_cons]
    omega
  unfold serve
  rw [hfree]
  exact Step.handOver (s := serve n holders queue) b ha

theorem serve_take (a : α) (hlt : holders.length < n) :
    Step (serve n holders []) (serve n (a :: holders) []) := by
  have hfree : n - (a :: holders).length = n - holders.length - 1 := by
    rw [List.length_cons]
    omega
  unfold serve
  rw [hfree]
  exact Step.take (s := serve n holders []) a (Nat.sub_pos_of_lt hlt)

omit [DecidableEq α] in
/-- The first in the queue, where enough is free for it. -/
theorem serve_cons (hle : holders.length + m ≤ n) :
    serve n holders ((a, m) :: queue) =
      { available := (give (n - holders.length - m) (queue.map fresh)).1
        holders := holders
        waiters := ⟨a, m, m⟩ :: (give (n - holders.length - m) (queue.map fresh)).2 } := by
  have htaken : min (n - holders.length) (m - 0) = m := by omega
  simp only [serve, List.map_cons, give_cons, fresh, htaken, Nat.zero_add]

theorem serve_resume (hle : holders.length + m ≤ n) :
    Step (serve n holders ((a, m) :: queue)) (serve n (.replicate m a ++ holders) queue) := by
  have hfree : n - (List.replicate m a ++ holders).length = n - holders.length - m := by
    rw [List.length_append, List.length_replicate]
    omega
  rw [serve_cons hle]
  unfold serve
  rw [hfree]
  exact @Step.resume _ _ _ ⟨a, m, m⟩ [] _ rfl rfl

theorem serve_drop (hle : holders.length + m ≤ n) :
    Step (serve n holders ((a, m) :: queue)) (serve n holders queue) := by
  have hfree : n - holders.length - m + m = n - holders.length := by omega
  have hserve : serve n holders queue = State.restore
      ⟨(give (n - holders.length - m) (queue.map fresh)).1, holders,
        (give (n - holders.length - m) (queue.map fresh)).2⟩ m := by
    unfold serve State.restore
    rw [← hfree, give_add, hfree, Nat.add_comm]
  rw [serve_cons hle, hserve]
  exact @Step.drop _ _ _ ⟨a, m, m⟩ [] _ rfl

omit [DecidableEq α] in
/-- Waiters that are dropped from a fresh queue leave what they would have
collected to the others. -/
theorem give_filter (p : α → Bool) {ws : List (Waiter α)} (hfresh : ∀ w ∈ ws, w.got = 0) (k : ℕ) :
    give k (ws.filter fun w => p w.who) =
      ((give (collected ((give k ws).2.filter fun w => !p w.who))
          ((give k ws).2.filter fun w => p w.who)).1 + (give k ws).1,
        (give (collected ((give k ws).2.filter fun w => !p w.who))
          ((give k ws).2.filter fun w => p w.who)).2) := by
  induction ws generalizing k with
  | nil => simp
  | cons w ws ih =>
    have hws := (List.forall_mem_cons.mp hfresh).2
    have hgot := (List.forall_mem_cons.mp hfresh).1
    have ih := ih hws (k - min k (w.wants - w.got))
    cases hp : p w.who with
    | true =>
      -- one that stays takes no more than before: if it lacks any, nothing is left for the rest
      have hnone : min (collected ((give (k - min k (w.wants - w.got)) ws).2.filter
          fun w => !p w.who)) (w.wants - (w.got + min k (w.wants - w.got))) = 0 := by
        by_cases hlack : w.wants - w.got < k
        · omega
        · have hzero : k - min k (w.wants - w.got) = 0 := by omega
          have hcollected : collected (ws.filter fun w => !p w.who) = 0 :=
            collected_eq_zero fun w hw => hws w (List.mem_of_mem_filter hw)
          rw [hzero, give_zero, hcollected]
          exact Nat.zero_min _
      simp only [give_cons, List.filter_cons, hp, Bool.not_true, Bool.false_eq_true, if_true,
        if_false, hnone, Nat.sub_zero, Nat.add_zero, ih]
    | false =>
      have hsum : k - min k (w.wants - w.got) + min k (w.wants - w.got) = k := by omega
      have hgiven : w.got + min k (w.wants - w.got) = min k (w.wants - w.got) := by omega
      simp only [give_cons, List.filter_cons, hp, Bool.not_false, Bool.false_eq_true, if_true,
        if_false, collected_cons, hgiven]
      have htwice := give_add (k - min k (w.wants - w.got)) (min k (w.wants - w.got))
        (ws.filter fun w => p w.who)
      rw [hsum, ih] at htwice
      rw [htwice, Nat.add_comm (min k (w.wants - w.got)) (collected _), give_add, Nat.add_assoc]

theorem serve_cancel :
    serve n holders (queue.filter fun x => x.1 ≠ a) = (serve n holders queue).cancel a := by
  have hfresh : ∀ w ∈ queue.map fresh, w.got = 0 := by
    intro w hw
    obtain ⟨x, -, rfl⟩ := List.mem_map.mp hw
    rfl
  have hfilter : (queue.filter fun x => x.1 ≠ a).map fresh =
      (queue.map fresh).filter fun w => decide (w.who ≠ a) := by
    rw [List.filter_map]
    rfl
  have hgive := give_filter (fun b => decide (b ≠ a)) hfresh (n - holders.length)
  simp only [decide_not, Bool.not_not] at hgive hfilter
  unfold serve State.cancel State.restore
  simp only [decide_not]
  rw [hfilter, hgive, Nat.add_comm]

end Semaphore

end Interleave

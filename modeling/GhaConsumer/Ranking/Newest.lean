import Mathlib.Data.List.Perm.Basic
import Mathlib.Data.List.Nodup

/-!
# The newest of a list

A list sorted by a key, the greatest first and ties in their order: how
many entries come before one is read off the list as it was (`length_before`),
and so is whether it is among the first few (`mem_take_newest`). And of
a list of names in unknown order, cut off at some length: how many with a
property are given at the least, and that it may be no more
(`exists_given`).
-/

namespace Ranking

variable {α : Type} {key : α → ℕ} {l l₁ l₂ s₁ s₂ : List α} {a e : α} {k m : ℕ}

/-- Sorted by key, the greatest first; the sort is stable. -/
def newest (key : α → ℕ) (l : List α) : List α := l.mergeSort fun a b => key b ≤ key a

theorem newest_trans (a b c : α) : decide (key b ≤ key a) = true → decide (key c ≤ key b) = true →
    decide (key c ≤ key a) = true := by
  simp only [decide_eq_true_eq]
  omega

theorem newest_total (a b : α) : (decide (key b ≤ key a) || decide (key a ≤ key b)) = true := by
  simp only [Bool.or_eq_true, decide_eq_true_eq]
  omega

theorem newest_perm (key : α → ℕ) (l : List α) : (newest key l).Perm l := List.mergeSort_perm _ _

theorem newest_pairwise (key : α → ℕ) (l : List α) :
    (newest key l).Pairwise fun a b => key b ≤ key a :=
  (List.pairwise_mergeSort newest_trans newest_total l).imp fun h => of_decide_eq_true h

/-- Ties stay in their order. -/
theorem newest_stable (hab : key e ≤ key a) (h : [a, e].Sublist l) : [a, e].Sublist (newest key l) :=
  List.pair_sublist_mergeSort newest_trans newest_total (decide_eq_true hab) h

/-- In a list without repetitions, what stands before `e` is not after it. -/
theorem mem_before (hnodup : (s₁ ++ e :: s₂).Nodup) (h : [a, e].Sublist (s₁ ++ e :: s₂)) :
    a ∈ s₁ := by
  have hdisj := List.nodup_append.mp hnodup
  have hne : e ∉ s₂ := (List.nodup_cons.mp hdisj.2.1).1
  rw [List.sublist_append_iff] at h
  obtain ⟨u, v, huv, hu, hv⟩ := h
  cases u with
  | cons b u =>
    obtain ⟨rfl, -⟩ := List.cons.inj huv
    exact hu.subset List.mem_cons_self
  | nil =>
    -- then `a` is `e` or after it, and `e` is after `a`
    rw [List.nil_append] at huv
    subst huv
    rcases List.cons_sublist_cons'.mp hv with hv | ⟨-, hv⟩
    · exact absurd (hv.subset (by simp)) hne
    · exact absurd (hv.subset List.mem_cons_self) hne

/-- What the sort puts before `e`: what was before it and is no older, and
what was after it and is newer. -/
theorem mem_newest_before (hnodup : (l₁ ++ e :: l₂).Nodup)
    (h : newest key (l₁ ++ e :: l₂) = s₁ ++ e :: s₂) :
    a ∈ s₁ ↔ a ∈ l₁ ∧ key e ≤ key a ∨ a ∈ l₂ ∧ key e < key a := by
  have hperm : (s₁ ++ e :: s₂).Perm (l₁ ++ e :: l₂) := h ▸ newest_perm key _
  have hnodup' : (s₁ ++ e :: s₂).Nodup := hperm.nodup_iff.mpr hnodup
  have hsorted : (s₁ ++ e :: s₂).Pairwise fun a b => key b ≤ key a := h ▸ newest_pairwise key _
  have hcross := List.pairwise_append.mp hsorted
  have hne : a ∈ s₁ → a ≠ e := by
    rintro ha rfl
    exact (List.nodup_append.mp hnodup').2.2 a ha a List.mem_cons_self rfl
  constructor
  · intro ha
    have hle : key e ≤ key a := hcross.2.2 a ha e List.mem_cons_self
    have hmem : a ∈ l₁ ++ e :: l₂ := hperm.mem_iff.mp (List.mem_append_left _ ha)
    rcases List.mem_append.mp hmem with hmem | hmem
    · exact .inl ⟨hmem, hle⟩
    · have hmem : a ∈ l₂ := (List.mem_cons.mp hmem).resolve_left (hne ha)
      refine .inr ⟨hmem, Nat.lt_of_not_le fun hback => ?_⟩
      -- a tie, or an older entry, would have stayed behind
      have hsub : [e, a].Sublist (l₁ ++ e :: l₂) :=
        ((List.singleton_sublist.mpr hmem).cons_cons e).trans (List.sublist_append_right l₁ _)
      have hstay := newest_stable hback hsub
      rw [h] at hstay
      obtain ⟨u, v, hsplit⟩ := List.append_of_mem ha
      rw [hsplit, List.append_assoc, List.cons_append] at hstay hnodup'
      have he : e ∈ u := mem_before hnodup' hstay
      have hin : e ∈ s₁ := by
        rw [hsplit]
        exact List.mem_append_left _ he
      rw [← List.cons_append, ← List.append_assoc, ← hsplit] at hnodup'
      exact (List.nodup_append.mp hnodup').2.2 e hin e List.mem_cons_self rfl
  · rintro (⟨ha, hle⟩ | ⟨ha, hlt⟩)
    · have hsub : [a, e].Sublist (l₁ ++ e :: l₂) := by
        have hpair := (List.singleton_sublist.mpr ha).append
          (List.singleton_sublist.mpr (List.mem_cons_self (a := e) (l := l₂)))
        exact hpair
      have hstay := newest_stable hle hsub
      rw [h] at hstay
      exact mem_before hnodup' hstay
    · have hmem : a ∈ s₁ ++ e :: s₂ :=
        hperm.mem_iff.mpr (List.mem_append_right _ (List.mem_cons_of_mem _ ha))
      rcases List.mem_append.mp hmem with hmem | hmem
      · exact hmem
      · rcases List.mem_cons.mp hmem with rfl | hmem
        · omega
        · have hback := (List.pairwise_cons.mp hcross.2.1).1 a hmem
          omega

/-- **The place of an entry**, counted on the list as it was. -/
theorem length_before (hnodup : (l₁ ++ e :: l₂).Nodup)
    (h : newest key (l₁ ++ e :: l₂) = s₁ ++ e :: s₂) :
    s₁.length = l₁.countP (fun a => key e ≤ key a) + l₂.countP fun a => key e < key a := by
  have hparts := List.nodup_append.mp hnodup
  have hs : s₁.Nodup := by
    have hnodup' := ((newest_perm key (l₁ ++ e :: l₂)).nodup_iff).mpr hnodup
    rw [h] at hnodup'
    exact (List.nodup_append.mp hnodup').1
  have hr : (l₁.filter (fun a => key e ≤ key a) ++ l₂.filter fun a => key e < key a).Nodup := by
    refine List.nodup_append.mpr ⟨hparts.1.filter _, ((List.nodup_cons.mp hparts.2.1).2).filter _,
      fun a ha b hb => ?_⟩
    exact hparts.2.2 a (List.mem_filter.mp ha).1 b (List.mem_cons_of_mem _ (List.mem_filter.mp hb).1)
  have hperm := (List.perm_ext_iff_of_nodup hs hr).mpr fun a => by
    rw [mem_newest_before hnodup h, List.mem_append, List.mem_filter, List.mem_filter,
      decide_eq_true_eq, decide_eq_true_eq]
  rw [hperm.length_eq, List.length_append, List.countP_eq_length_filter,
    List.countP_eq_length_filter]

/-- An entry is among the first `k` where fewer than `k` come before it. -/
theorem mem_take_newest (hnodup : (l₁ ++ e :: l₂).Nodup) :
    e ∈ (newest key (l₁ ++ e :: l₂)).take k ↔
      l₁.countP (fun a => key e ≤ key a) + l₂.countP (fun a => key e < key a) < k := by
  have hmem : e ∈ newest key (l₁ ++ e :: l₂) :=
    (newest_perm key _).mem_iff.mpr (List.mem_append_right _ List.mem_cons_self)
  obtain ⟨s₁, s₂, hs⟩ := List.append_of_mem hmem
  rw [← length_before hnodup hs, hs]
  have hnodup' : (s₁ ++ e :: s₂).Nodup :=
    hs ▸ ((newest_perm key (l₁ ++ e :: l₂)).nodup_iff).mpr hnodup
  constructor
  · intro hin
    by_contra hge
    rw [List.take_append_of_le_length (Nat.le_of_not_lt hge)] at hin
    exact (List.nodup_append.mp hnodup').2.2 e (List.mem_of_mem_take hin) e List.mem_cons_self rfl
  · intro hlt
    obtain ⟨n, rfl⟩ : ∃ n, k = s₁.length + (n + 1) := ⟨k - s₁.length - 1, by omega⟩
    rw [List.take_length_add_append]
    exact List.mem_append_right _ List.mem_cons_self

/-- What is not among the first is no newer than any of them. -/
theorem key_le_of_not_mem_take (ha : a ∈ l) (hout : a ∉ (newest key l).take k)
    (he : e ∈ (newest key l).take k) : key a ≤ key e := by
  have hsorted := newest_pairwise key l
  rw [← List.take_append_drop k (newest key l)] at hsorted
  have hmem : a ∈ (newest key l).take k ++ (newest key l).drop k := by
    rw [List.take_append_drop]
    exact (newest_perm key l).mem_iff.mpr ha
  exact (List.pairwise_append.mp hsorted).2.2 e he a ((List.mem_append.mp hmem).resolve_left hout)

/-! ## Names in unknown order -/

variable {P : α → Bool} {given rest names : List α} {x : α}

/-- Of the names with a property at most those left out are missing. -/
theorem countP_given (h : (given ++ rest).Perm names) :
    names.countP P - (names.length - given.length) ≤ given.countP P := by
  have hcount := h.countP_eq P
  have hlen := h.length_eq
  rw [List.countP_append] at hcount
  rw [List.length_append] at hlen
  have hrest : rest.countP P ≤ rest.length := List.countP_le_length
  omega

/-- And they may all be missing. -/
theorem exists_given (names : List α) (P : α → Bool) (m : ℕ) :
    ∃ given rest : List α, (given ++ rest).Perm names ∧ given.length = min names.length m ∧
      given.countP P = names.countP P - (names.length - m) := by
  have hperm : (names.filter (fun x => !P x) ++ names.filter P).Perm names :=
    List.perm_append_comm.trans (List.filter_append_perm P names)
  have hlen := hperm.length_eq
  rw [List.length_append] at hlen
  have hsplit := List.take_append_drop m (names.filter (fun x => !P x) ++ names.filter P)
  refine ⟨_, _, (List.Perm.of_eq hsplit).trans hperm, ?_, ?_⟩
  · rw [List.length_take, List.length_append]
    omega
  · have hnone : ((names.filter fun x => !P x).take m).countP P = 0 := by
      rw [List.countP_eq_zero]
      intro x hx
      have := (List.mem_filter.mp (List.mem_of_mem_take hx)).2
      simpa using this
    have hall : ∀ n, ((names.filter P).take n).countP P = min n (names.filter P).length := by
      intro n
      rw [List.countP_eq_length.mpr fun x hx =>
        (List.mem_filter.mp (List.mem_of_mem_take hx)).2, List.length_take]
    rw [List.take_append, List.countP_append, hnone, hall, List.countP_eq_length_filter]
    omega

/-- Also where a name without the property is given first. -/
theorem exists_given_first [DecidableEq α] (hx : x ∈ names) (hP : P x = false) (hm : 0 < m) :
    ∃ given rest : List α, (x :: given ++ rest).Perm names ∧
      (x :: given).length = min names.length m ∧
      given.countP P = names.countP P - (names.length - m) := by
  have hperm := List.perm_cons_erase hx
  have hlen := hperm.length_eq
  have hcount := hperm.countP_eq P
  rw [List.length_cons] at hlen
  rw [List.countP_cons_of_neg (by simp [hP])] at hcount
  obtain ⟨given, rest, hgiven, hlength, hnumber⟩ := exists_given (names.erase x) P (m - 1)
  refine ⟨given, rest, (hgiven.cons x).trans hperm.symm, ?_, ?_⟩
  · rw [List.length_cons]
    omega
  · rw [hnumber, hcount]
    congr 1
    omega

end Ranking

import Mathlib.Data.List.Basic
import Mathlib.Data.Nat.Notation

/-!
# Lines

A text of lines ends each of them, and taking it apart gives the lines
back and an empty rest: that is so when and only when no line holds what
ends lines.
-/

namespace Text

variable {α : Type*} {x : α} {t l : List α} {ls : List (List α)}

/-- Lines, each with its end. -/
def unlines (x : α) (ls : List (List α)) : List α := ls.flatMap fun l => l ++ [x]

theorem intercalate_eq_unlines : List.intercalate [x] (ls ++ [[]]) = unlines x ls := by
  induction ls with
  | nil => rfl
  | cons l ls ih =>
    rw [List.cons_append, List.intercalate_cons_of_ne_nil (by simp), ih]
    rfl

variable [BEq α] [LawfulBEq α]

/-- No piece holds what the text is split at. -/
theorem not_mem_of_mem_splitOn (h : l ∈ t.splitOn x) : x ∉ l := by
  induction t generalizing l with
  | nil =>
    rw [List.splitOn_nil, List.mem_singleton] at h
    rw [h]
    exact List.not_mem_nil
  | cons y t ih =>
    rw [List.splitOn_cons_eq_if_modifyHead] at h
    obtain ⟨first, rest, hsplit⟩ := List.exists_cons_of_ne_nil (List.splitOn_ne_nil x t)
    rw [hsplit] at h ih
    split at h
    · rcases List.mem_cons.mp h with rfl | h
      · exact List.not_mem_nil
      · exact ih h
    · rename_i hne
      rcases List.mem_cons.mp h with rfl | h
      · have hxy : x ≠ y := by
          rintro rfl
          exact hne (BEq.refl _)
        rw [List.mem_cons, not_or]
        exact ⟨hxy, ih List.mem_cons_self⟩
      · exact ih (List.mem_cons_of_mem _ h)

/-- **A text is split into these lines when it was made of them and none
of them holds the end of a line.** -/
theorem splitOn_eq_iff :
    t.splitOn x = ls ++ [[]] ↔ t = unlines x ls ∧ ∀ l ∈ ls, x ∉ l := by
  constructor
  · intro h
    refine ⟨?_, fun l hl => not_mem_of_mem_splitOn (t := t) (h ▸ List.mem_append_left _ hl)⟩
    rw [← intercalate_eq_unlines, ← h, List.intercalate_splitOn]
  · rintro ⟨rfl, hls⟩
    rw [← intercalate_eq_unlines]
    refine List.splitOn_intercalate x (fun l hl => ?_) (by simp)
    rcases List.mem_append.mp hl with hl | hl
    · exact hls l hl
    · rw [List.mem_singleton.mp hl]
      exact List.not_mem_nil

end Text

import Mathlib

/-!
# The lines of a text

`lines sep s` cuts `s` at every `sep`. What stands after the last `sep` is a line where it is not
empty, so that a text may end its last line or not, and an empty text has no lines. Reading line by
line is an induction on `cut_cases`: there is a line that ends, with the rest of the text behind it,
or the text is one line that does not.
-/

set_option autoImplicit false

namespace Lines

variable {α : Type} [DecidableEq α] {sep : α}

def lines (sep : α) : List α → List (List α)
  | [] => []
  | c :: s =>
      if c = sep then [] :: lines sep s
      else match lines sep s with
        | [] => [[c]]
        | w :: ws => (c :: w) :: ws

/-- A line that ends. -/
theorem lines_append_cons {w : List α} (s : List α) (hw : sep ∉ w) :
    lines sep (w ++ sep :: s) = w :: lines sep s := by
  induction w with
  | nil => exact if_pos rfl
  | cons c w ih =>
    rw [List.mem_cons, not_or] at hw
    rw [List.cons_append, lines, if_neg (Ne.symm hw.1), ih hw.2]

/-- One that does not. -/
theorem lines_of_not_mem {w : List α} (hne : w ≠ []) (hw : sep ∉ w) : lines sep w = [w] := by
  induction w with
  | nil => exact absurd rfl hne
  | cons c w ih =>
    rw [List.mem_cons, not_or] at hw
    cases w with
    | nil => rw [lines, if_neg (Ne.symm hw.1), lines]
    | cons d w => rw [lines, if_neg (Ne.symm hw.1), ih (List.cons_ne_nil d w) hw.2]

/-- The first line of a text. -/
theorem cut_cases (sep : α) (s : List α) :
    sep ∉ s ∨ ∃ w s', s = w ++ sep :: s' ∧ sep ∉ w := by
  by_cases h : sep ∈ s
  · obtain ⟨w, s', rfl, hw⟩ := List.eq_append_cons_of_mem h
    exact .inr ⟨w, s', rfl, hw⟩
  · exact .inl h

/-- Lines that were put together come apart again. -/
theorem lines_flatMap {f : List α → List α} {ls : List (List α)} (hf : ∀ l ∈ ls, sep ∉ f l) :
    lines sep (ls.flatMap fun l => f l ++ [sep]) = ls.map f := by
  induction ls with
  | nil => rfl
  | cons l ls ih =>
    rw [List.flatMap_cons, List.append_assoc, List.singleton_append,
      lines_append_cons _ (hf l List.mem_cons_self), List.map_cons,
      ih fun l' hl' => hf l' (List.mem_cons_of_mem _ hl')]

theorem not_mem_of_mem_lines {s l : List α} (hl : l ∈ lines sep s) : sep ∉ l := by
  induction h : s.length using Nat.strong_induction_on generalizing s with
  | _ n ih =>
    rcases cut_cases sep s with hs | ⟨w, s', rfl, hw⟩
    · by_cases hne : s = []
      · subst hne
        exact absurd hl List.not_mem_nil
      · rw [lines_of_not_mem hne hs, List.mem_singleton] at hl
        rwa [hl]
    · rw [lines_append_cons s' hw] at hl
      rcases List.mem_cons.mp hl with rfl | hl
      · exact hw
      · refine ih s'.length ?_ hl rfl
        rw [← h, List.length_append, List.length_cons]
        omega

end Lines

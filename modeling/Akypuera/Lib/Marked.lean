import Mathlib

/-!
# Lists with two kinds of elements

A list is known if one knows the elements of one kind (those that `p` accepts) and, for each of the
others, which of the first kind stand before it (`eq_iff_marks`). This is how two programs are
compared that write declarations and uses in one sequence.
-/

set_option autoImplicit false

namespace Marked

variable {α : Type} {p : α → Bool}

/-- The elements that `p` rejects, each with those before it that `p` accepts, behind `acc`. -/
def marks (p : α → Bool) : List α → List α → List (List α × α)
  | _, [] => []
  | acc, a :: as => if p a then marks p (acc ++ [a]) as else (acc, a) :: marks p acc as

theorem marks_append (acc as bs : List α) :
    marks p acc (as ++ bs) = marks p acc as ++ marks p (acc ++ as.filter p) bs := by
  induction as generalizing acc with
  | nil => simp [marks]
  | cons a as ih =>
    cases ha : p a with
    | true => simp [marks, ha, ih]
    | false => simp [marks, ha, ih]

theorem length_le_of_mem_marks {acc as : List α} {m : List α × α} (h : m ∈ marks p acc as) :
    acc.length ≤ m.1.length := by
  induction as generalizing acc with
  | nil => exact absurd h List.not_mem_nil
  | cons a as ih =>
    rw [marks] at h
    split at h
    · have hle := ih h
      rw [List.length_append, List.length_singleton] at hle
      omega
    · rcases List.mem_cons.mp h with rfl | h
      · exact le_refl _
      · exact ih h

/-- What stands behind an accepted element is not marked with less. -/
theorem marks_ne {acc as bs : List α} {a b : α} :
    marks p (acc ++ [a]) as ≠ (acc, b) :: marks p acc bs := by
  intro h
  have hmem : (acc, b) ∈ marks p (acc ++ [a]) as := h ▸ List.mem_cons_self
  have hle := length_le_of_mem_marks hmem
  rw [List.length_append, List.length_singleton] at hle
  exact absurd hle (by simp)

theorem eq_of_marks {acc as bs : List α} (hmarks : marks p acc as = marks p acc bs)
    (hfilter : as.filter p = bs.filter p) : as = bs := by
  induction as generalizing acc bs with
  | nil =>
    cases bs with
    | nil => rfl
    | cons b bs =>
      cases hb : p b with
      | true => simp [hb] at hfilter
      | false => simp [marks, hb] at hmarks
  | cons a as ih =>
    cases bs with
    | nil =>
      cases ha : p a with
      | true => simp [ha] at hfilter
      | false => simp [marks, ha] at hmarks
    | cons b bs =>
      cases ha : p a with
      | true =>
        cases hb : p b with
        | true =>
          rw [List.filter_cons_of_pos ha, List.filter_cons_of_pos hb] at hfilter
          obtain ⟨rfl, htail⟩ := List.cons.inj hfilter
          rw [marks, if_pos ha, marks, if_pos ha] at hmarks
          rw [ih hmarks htail]
        | false =>
          rw [marks, if_pos ha, marks, if_neg (by simp [hb])] at hmarks
          exact absurd hmarks marks_ne
      | false =>
        cases hb : p b with
        | true =>
          rw [marks, if_neg (by simp [ha]), marks, if_pos hb] at hmarks
          exact absurd hmarks.symm marks_ne
        | false =>
          rw [List.filter_cons_of_neg (by simp [ha]), List.filter_cons_of_neg (by simp [hb])]
            at hfilter
          rw [marks, if_neg (by simp [ha]), marks, if_neg (by simp [hb])] at hmarks
          obtain ⟨hab, htail⟩ := List.cons.inj hmarks
          rw [(Prod.mk.inj hab).2, ih htail hfilter]

theorem eq_iff_marks {as bs : List α} :
    as = bs ↔ marks p [] as = marks p [] bs ∧ as.filter p = bs.filter p := by
  constructor
  · rintro rfl
    exact ⟨rfl, rfl⟩
  · rintro ⟨hmarks, hfilter⟩
    exact eq_of_marks hmarks hfilter

end Marked

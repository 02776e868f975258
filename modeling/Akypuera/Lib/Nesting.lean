import Mathlib

/-!
# Openings and closings

A list of tagged openings and closings, replayed on a stack: a closing closes the innermost
opening that is still open (`closings`). **Leaving out pairs leaves the rest as it was**
(`filter_pairs`): when of every opening and its closing either both or neither are kept, each
kept closing closes what it closed before.
-/

set_option autoImplicit false

namespace Nesting

variable {τ : Type}

inductive Mark where
  | opens
  | closes
  deriving DecidableEq

/-- One of two things. -/
def Mark.pick {α : Type} (a b : α) : Mark → α
  | opens => a
  | closes => b

/-- Each closing with what it closes, when the tags `st` are open, innermost first. -/
def closings : List τ → List (τ × Mark) → List (τ × Option τ)
  | _, [] => []
  | st, (i, .opens) :: l => closings (i :: st) l
  | [], (j, .closes) :: l => (j, none) :: closings [] l
  | i :: st, (j, .closes) :: l => (j, some i) :: closings st l

/-- What is open after them. -/
def leftOpen : List τ → List (τ × Mark) → List τ
  | st, [] => st
  | st, (i, .opens) :: l => leftOpen (i :: st) l
  | [], (_, .closes) :: l => leftOpen [] l
  | _ :: st, (_, .closes) :: l => leftOpen st l

/-- **Leaving out pairs** leaves what the others close, and what stays open of them. -/
theorem filter_pairs (keep : τ → Bool) {st : List τ} {l : List (τ × Mark)}
    (h : ∀ x ∈ closings st l, ∃ i, x.2 = some i ∧ keep i = keep x.1) :
    closings (st.filter keep) (l.filter fun x => keep x.1) =
        (closings st l).filter (fun x => keep x.1) ∧
      leftOpen (st.filter keep) (l.filter fun x => keep x.1) = (leftOpen st l).filter keep := by
  induction l generalizing st with
  | nil => exact ⟨rfl, rfl⟩
  | cons x l ih =>
    obtain ⟨j, mark⟩ := x
    cases mark with
    | opens =>
      have hrest := @ih (j :: st) h
      cases hj : keep j with
      | true => simpa [List.filter_cons, hj, closings, leftOpen] using hrest
      | false => simpa [List.filter_cons, hj, closings, leftOpen] using hrest
    | closes =>
      cases st with
      | nil =>
        obtain ⟨i, hi, -⟩ := h (j, none) (by simp [closings])
        exact absurd hi (by simp)
      | cons i st =>
        obtain ⟨i', hi', hkeep⟩ := h (j, some i) (by simp [closings])
        cases hi'
        have hkeep : keep i = keep j := hkeep
        have hrest := @ih st fun x hx => h x (by simp [closings, hx])
        -- the opening and its closing go together
        cases hj : keep j with
        | true => simpa [List.filter_cons, hkeep, hj, closings, leftOpen] using hrest
        | false => simpa [List.filter_cons, hkeep, hj, closings, leftOpen] using hrest

/-- From an empty stack, every closing that is left closes what it closed before. -/
theorem paired_filter (keep : τ → Bool) {l : List (τ × Mark)}
    (h : ∀ x ∈ closings [] l, ∃ i, x.2 = some i ∧ keep i = keep x.1) :
    (∀ x ∈ closings [] (l.filter fun x => keep x.1), x.2.isSome = true ∧ x ∈ closings [] l) ∧
      leftOpen [] (l.filter fun x => keep x.1) = (leftOpen [] l).filter keep := by
  obtain ⟨hclosings, hopen⟩ := @filter_pairs _ keep [] l h
  rw [List.filter_nil] at hclosings hopen
  refine ⟨?_, hopen⟩
  intro x hx
  rw [hclosings] at hx
  have hmem := (List.mem_filter.mp hx).1
  obtain ⟨i, hi, -⟩ := h x hmem
  exact ⟨by rw [hi]; rfl, hmem⟩

/-- What comes later closes nothing new of what came before. -/
theorem closings_append (st : List τ) (l l' : List (τ × Mark)) :
    closings st (l ++ l') = closings st l ++ closings (leftOpen st l) l' := by
  induction l generalizing st with
  | nil => rfl
  | cons x l ih =>
    obtain ⟨j, mark⟩ := x
    cases mark with
    | opens => exact ih (j :: st)
    | closes =>
      cases st with
      | nil => exact congrArg ((j, none) :: ·) (ih [])
      | cons i st => exact congrArg ((j, some i) :: ·) (ih st)

/-! ## Places -/

section
variable {α β : Type}

/-- The openings and closings of a list, by the places of what they are from, from `i` on. -/
def placed (f : α → List Mark) (i : Nat) : List α → List (Nat × Mark)
  | [] => []
  | a :: as => (f a).map (i, ·) ++ placed f (i + 1) as

theorem placed_append (f : α → List Mark) (i : Nat) (as as' : List α) :
    placed f i (as ++ as') = placed f i as ++ placed f (i + as.length) as' := by
  induction as generalizing i with
  | nil => rfl
  | cons a as ih =>
    rw [List.cons_append, placed, ih, placed, List.append_assoc, List.length_cons,
      Nat.add_right_comm, Nat.add_assoc]

/-- **Where each thing is answered by its own marks or by none**, the answers are some of the
    marks. -/
theorem placed_eq_filter {f : α → List Mark} {g : α × β → List Mark} (keep : Nat → Bool) {i : Nat}
    {l : List (α × β)} (h : ∀ before x after, l = before ++ x :: after →
      g x = if keep (i + before.length) then f x.1 else []) :
    placed g i l = (placed f i (l.map Prod.fst)).filter fun x => keep x.1 := by
  induction l generalizing i with
  | nil => rfl
  | cons x l ih =>
    have hhere := h [] x l rfl
    have hrest := @ih (i + 1) fun before y after heq => by
      have hthere := h (x :: before) y after (congrArg (x :: ·) heq)
      rwa [List.length_cons, Nat.add_comm _ 1, ← Nat.add_assoc] at hthere
    rw [placed, List.map_cons, placed, List.filter_append, ← hrest, hhere]
    congr 1
    have hall : ∀ y ∈ (f x.1).map (i, ·), keep y.1 = keep i := by
      intro y hy
      obtain ⟨mark, -, rfl⟩ := List.mem_map.mp hy
      rfl
    rw [List.length_nil, Nat.add_zero]
    cases hkeep : keep i with
    | true =>
      rw [if_pos rfl]
      exact (List.filter_eq_self.mpr fun y hy => (hall y hy).trans hkeep).symm
    | false =>
      rw [if_neg Bool.false_ne_true]
      exact (List.filter_eq_nil_iff.mpr fun y hy => by simp [hall y hy, hkeep]).symm

end

end Nesting

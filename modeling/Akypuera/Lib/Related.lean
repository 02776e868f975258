import Mathlib

/-!
# Lists related element by element

`List.Forall₂ R xs ys` is how a list of records is compared with the events read back from it,
or a list of events with what was written for each. Mathlib has the relation; what is added
here is how it is taken apart: along a split of the left list, at a member, and through a
filter.
-/

set_option autoImplicit false

namespace List.Forall₂

variable {α β γ : Type} {R : α → β → Prop} {S : β → γ → Prop}

theorem exists_of_mem_right {xs : List α} {ys : List β} (h : Forall₂ R xs ys) {y : β}
    (hy : y ∈ ys) : ∃ x ∈ xs, R x y := by
  induction h with
  | nil => exact absurd hy (by simp)
  | @cons x y' xs ys hxy _ ih =>
    rcases mem_cons.mp hy with rfl | hy
    · exact ⟨x, by simp, hxy⟩
    · obtain ⟨x', hx', hr⟩ := ih hy
      exact ⟨x', by simp [hx'], hr⟩

/-- A split of the left list splits the right one. -/
theorem split {xs xs' : List α} {ys : List β} (h : Forall₂ R (xs ++ xs') ys) :
    ∃ zs zs', ys = zs ++ zs' ∧ Forall₂ R xs zs ∧ Forall₂ R xs' zs' := by
  induction xs generalizing ys with
  | nil => exact ⟨[], ys, rfl, Forall₂.nil, h⟩
  | cons x xs ih =>
    cases h with
    | cons hxy hrest =>
      obtain ⟨zs, zs', rfl, hzs, hzs'⟩ := ih hrest
      exact ⟨_ :: zs, zs', rfl, Forall₂.cons hxy hzs, hzs'⟩

/-- Two relations one after the other. -/
theorem comp {xs : List α} {ys : List β} {zs : List γ} (h : Forall₂ R xs ys)
    (h' : Forall₂ S ys zs) : Forall₂ (fun x z => ∃ y, R x y ∧ S y z) xs zs := by
  induction h generalizing zs with
  | nil => cases h'; exact Forall₂.nil
  | cons hxy _ ih =>
    cases h' with
    | cons hyz hrest => exact Forall₂.cons ⟨_, hxy, hyz⟩ (ih hrest)

/-- What stands for the members that pass a test. -/
theorem filter {xs : List α} {yss : List (List β)} {T : α → List β → Prop} {p : α → Bool}
    {q : β → Bool} (h : Forall₂ T xs yss)
    (hin : ∀ x ys, T x ys → p x = true → ∀ y ∈ ys, q y = true)
    (hout : ∀ x ys, T x ys → p x = false → ∀ y ∈ ys, q y = false) :
    ∃ yss', Forall₂ T (xs.filter p) yss' ∧ yss.flatten.filter q = yss'.flatten := by
  induction h with
  | nil => exact ⟨[], Forall₂.nil, rfl⟩
  | @cons x ys xs yss hT _ ih =>
    obtain ⟨yss', hrest, heq⟩ := ih
    cases hp : p x with
    | true =>
      refine ⟨ys :: yss', ?_, ?_⟩
      · rw [List.filter_cons_of_pos hp]
        exact Forall₂.cons hT hrest
      · rw [flatten_cons, filter_append, flatten_cons, heq,
          filter_eq_self.mpr (hin x ys hT hp)]
    | false =>
      refine ⟨yss', ?_, ?_⟩
      · rw [List.filter_cons_of_neg (by simp [hp])]
        exact hrest
      · have hnone : ys.filter q = [] :=
          filter_eq_nil_iff.mpr fun y hy => by simp [hout x ys hT hp y hy]
        rw [flatten_cons, filter_append, hnone, List.nil_append, heq]

end List.Forall₂

/-- Lists that are the same class by class are the same up to order. -/
theorem List.perm_of_filter_eq {α κ : Type} [DecidableEq κ] (f : α → κ) {l l' : List α}
    (h : ∀ k, l.filter (fun x => f x = k) = l'.filter fun x => f x = k) : l.Perm l' := by
  classical
  rw [List.perm_iff_count]
  intro x
  rw [← List.count_filter (p := fun y => decide (f y = f x)) (by simp), h,
    List.count_filter (by simp)]

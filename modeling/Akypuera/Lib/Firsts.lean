import Mathlib

/-!
# The first of each key

A table that is looked up before it is added to keeps, of a list, the first element under each key
(`firsts`). Each key is kept **once** (`eq_of_mem_firsts`), and none is left out
(`key_mem_keysAfter`).
-/

set_option autoImplicit false

namespace Firsts

variable {α κ : Type} [DecidableEq κ]

/-- What is added to a table that holds the keys `seen`. -/
def firsts (key : α → κ) : List κ → List α → List α
  | _, [] => []
  | seen, a :: as =>
      if key a ∈ seen then firsts key seen as else a :: firsts key (seen ++ [key a]) as

/-- The keys that the table holds afterwards. -/
def keysAfter (key : α → κ) (seen : List κ) (as : List α) : List κ :=
  seen ++ (firsts key seen as).map key

variable {key : α → κ} {seen : List κ} {as : List α} {a : α}

theorem firsts_cons_of_mem (h : key a ∈ seen) : firsts key seen (a :: as) = firsts key seen as :=
  if_pos h

theorem firsts_cons_of_not_mem (h : key a ∉ seen) :
    firsts key seen (a :: as) = a :: firsts key (seen ++ [key a]) as := if_neg h

theorem keysAfter_cons (key : α → κ) (seen : List κ) (a : α) (as : List α) :
    keysAfter key seen (a :: as) =
      keysAfter key (if key a ∈ seen then seen else seen ++ [key a]) as := by
  by_cases h : key a ∈ seen
  · rw [if_pos h, keysAfter, firsts_cons_of_mem h, keysAfter]
  · rw [if_neg h, keysAfter, firsts_cons_of_not_mem h, keysAfter, List.map_cons, List.append_assoc]
    rfl

theorem keysAfter_append (key : α → κ) (seen : List κ) (as bs : List α) :
    keysAfter key seen (as ++ bs) = keysAfter key (keysAfter key seen as) bs := by
  induction as generalizing seen with
  | nil => simp [keysAfter, firsts]
  | cons a as ih => rw [List.cons_append, keysAfter_cons, ih, ← keysAfter_cons]

theorem mem_of_mem_firsts (h : a ∈ firsts key seen as) : a ∈ as ∧ key a ∉ seen := by
  induction as generalizing seen with
  | nil => exact absurd h (by simp [firsts])
  | cons b as ih =>
    by_cases hb : key b ∈ seen
    · rw [firsts_cons_of_mem hb] at h
      exact ⟨List.mem_cons_of_mem _ (ih h).1, (ih h).2⟩
    · rw [firsts_cons_of_not_mem hb] at h
      rcases List.mem_cons.mp h with rfl | h
      · exact ⟨List.mem_cons_self, hb⟩
      · exact ⟨List.mem_cons_of_mem _ (ih h).1, fun hs => (ih h).2 (List.mem_append_left _ hs)⟩

/-- Every key is in the table afterwards. -/
theorem key_mem_keysAfter (h : a ∈ as) : key a ∈ keysAfter key seen as := by
  induction as generalizing seen with
  | nil => exact absurd h (by simp)
  | cons b as ih =>
    rw [keysAfter_cons]
    rcases List.mem_cons.mp h with rfl | h
    · refine List.mem_append_left _ ?_
      split
      · assumption
      · simp
    · exact ih h

/-- **No key twice.** -/
theorem nodup_keysAfter (h : seen.Nodup) : (keysAfter key seen as).Nodup := by
  induction as generalizing seen with
  | nil => simpa [keysAfter, firsts] using h
  | cons b as ih =>
    rw [keysAfter_cons]
    split
    · exact ih h
    · next hb => exact ih (List.nodup_append.mpr ⟨h, by simp, by rintro x hx y hy rfl; simp_all⟩)

/-- As many as there are different ones. -/
theorem length_keysAfter (key : α → κ) (as : List α) :
    (keysAfter key [] as).length = (as.map key).toFinset.card := by
  have hnodup : (keysAfter key [] as).Nodup := nodup_keysAfter List.nodup_nil
  have hsame : (keysAfter key [] as).toFinset = (as.map key).toFinset := by
    ext k
    rw [List.mem_toFinset, List.mem_toFinset, List.mem_map]
    constructor
    · intro hk
      rw [keysAfter, List.nil_append] at hk
      obtain ⟨a, ha, rfl⟩ := List.mem_map.mp hk
      exact ⟨a, (mem_of_mem_firsts ha).1, rfl⟩
    · rintro ⟨a, ha, rfl⟩
      exact key_mem_keysAfter ha
  rw [← List.toFinset_card_of_nodup hnodup, hsame]

theorem firsts_append (key : α → κ) (seen : List κ) (as bs : List α) :
    firsts key seen (as ++ bs) = firsts key seen as ++ firsts key (keysAfter key seen as) bs := by
  induction as generalizing seen with
  | nil => simp [keysAfter, firsts]
  | cons a as ih =>
    rw [List.cons_append, keysAfter_cons]
    by_cases h : key a ∈ seen
    · rw [firsts_cons_of_mem h, firsts_cons_of_mem h, if_pos h, ih]
    · rw [firsts_cons_of_not_mem h, firsts_cons_of_not_mem h, if_neg h, ih, List.cons_append]

/-- The first that is kept under the key of an element. -/
theorem exists_mem_firsts (h : a ∈ as) : ∃ b ∈ firsts key [] as, key b = key a := by
  have hmem := @key_mem_keysAfter _ _ _ key [] _ _ h
  rw [keysAfter, List.nil_append] at hmem
  exact List.mem_map.mp hmem

/-- An element whose key is new is kept. -/
theorem mem_firsts_of_new {bs : List α} (h : key a ∉ as.map key) :
    a ∈ firsts key [] (as ++ a :: bs) := by
  have hnew : key a ∉ keysAfter key [] as := by
    rw [keysAfter, List.nil_append]
    intro hmem
    obtain ⟨b, hb, heq⟩ := List.mem_map.mp hmem
    exact h (List.mem_map.mpr ⟨b, (mem_of_mem_firsts hb).1, heq⟩)
  rw [firsts_append, firsts_cons_of_not_mem hnew]
  exact List.mem_append_right _ List.mem_cons_self

/-- Two elements that are kept under one key are the same. -/
theorem eq_of_mem_firsts (hseen : seen.Nodup) {b : α} (ha : a ∈ firsts key seen as)
    (hb : b ∈ firsts key seen as) (h : key a = key b) : a = b :=
  List.inj_on_of_nodup_map (List.Nodup.of_append_right (nodup_keysAfter hseen)) ha hb h

/-- The first element with a key. -/
theorem exists_first {b : κ} (h : b ∈ as.map key) :
    ∃ before a after, as = before ++ a :: after ∧ key a = b ∧ b ∉ before.map key := by
  induction as with
  | nil => exact absurd h List.not_mem_nil
  | cons a as ih =>
    by_cases ha : key a = b
    · exact ⟨[], a, as, rfl, ha, List.not_mem_nil⟩
    · rcases List.mem_cons.mp h with rfl | h
      · exact absurd rfl ha
      · obtain ⟨before, a', after, rfl, hkey, hnew⟩ := ih h
        refine ⟨a :: before, a', after, rfl, hkey, ?_⟩
        rw [List.map_cons, List.mem_cons]
        rintro (rfl | hmem)
        · exact ha rfl
        · exact hnew hmem

/-- What holds of each element of a list and those before it. -/
theorem forall_split_iff {P : List α → α → Prop} (as : List α) :
    (∀ before a after, as = before ++ a :: after → P before a) ↔
      ∀ i : Fin as.length, P (as.take i) (as.get i) := by
  constructor
  · intro h i
    refine h (as.take i) (as.get i) (as.drop (i + 1)) ?_
    rw [List.get_eq_getElem, List.getElem_cons_drop, List.take_append_drop]
  · intro h before a after heq
    have hi : before.length < as.length := by simp [heq]
    have hget := h ⟨before.length, hi⟩
    simpa [heq] using hget

/-- The same, from the first element on. -/
theorem forall_split_cons_iff {P : List α → α → Prop} {a : α} {as : List α} :
    (∀ before b rest, a :: as = before ++ b :: rest → P before b) ↔
      P [] a ∧ ∀ before b rest, as = before ++ b :: rest → P (a :: before) b := by
  constructor
  · intro h
    refine ⟨h [] a as rfl, ?_⟩
    intro before b rest heq
    exact h (a :: before) b rest (by rw [heq, List.cons_append])
  · rintro ⟨hhead, htail⟩ before b rest heq
    cases before with
    | nil =>
      obtain ⟨rfl, -⟩ := List.cons.inj heq
      exact hhead
    | cons c before =>
      obtain ⟨rfl, hrest⟩ := List.cons.inj heq
      exact htail before b rest hrest

end Firsts

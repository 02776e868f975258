import Akypuera.Lib.Search

/-!
# Definitions in a table of fixed size

Definitions enter a hash table one after the other, and nobody looks at what `ENTER` answers. The
first definition of a key counts, and a new key that comes to a full table is dropped. So **all
keys are found afterwards, with their first definitions, exactly when there is room for all of
them** (`find_defineAll`, `card_le_of_found`).
-/

set_option autoImplicit false

namespace Search
namespace HTab

variable {κ α : Type} [DecidableEq κ]

/-- A definition. -/
def define (t : HTab κ α) (d : κ × α) : HTab κ α := (t.enter d.1 d.2).getD t

def defineAll (t : HTab κ α) (ds : List (κ × α)) : HTab κ α := ds.foldl define t

theorem defineAll_append (t : HTab κ α) (ds ds' : List (κ × α)) :
    t.defineAll (ds ++ ds') = (t.defineAll ds).defineAll ds' := List.foldl_append

/-- What is there stays. -/
theorem find_defineAll_of_some {t : HTab κ α} {k : κ} {v : α} (h : t.find k = some v)
    (ds : List (κ × α)) : (t.defineAll ds).find k = some v := by
  induction ds generalizing t with
  | nil => exact h
  | cons d ds ih => exact ih (find_enter_of_some h d.1 d.2)

/-- The first definition of a key. -/
def firstOf (ds : List (κ × α)) (k : κ) : Option α :=
  (ds.find? fun d => decide (d.1 = k)).map Prod.snd

theorem firstOf_cons (d : κ × α) (ds : List (κ × α)) (k : κ) :
    firstOf (d :: ds) k = if d.1 = k then some d.2 else firstOf ds k := by
  rw [firstOf, List.find?_cons]
  by_cases heq : d.1 = k <;> simp [heq, firstOf]

theorem firstOf_isSome_iff {ds : List (κ × α)} {k : κ} :
    (firstOf ds k).isSome = true ↔ k ∈ ds.map Prod.fst := by
  rw [firstOf, Option.isSome_map, List.find?_isSome, List.mem_map]
  simp only [decide_eq_true_iff]

theorem mem_of_firstOf {ds : List (κ × α)} {k : κ} {v : α} (h : firstOf ds k = some v) :
    (k, v) ∈ ds := by
  obtain ⟨d, hd, rfl⟩ := Option.map_eq_some_iff.mp h
  have hkey := List.find?_some hd
  obtain rfl : d.1 = k := of_decide_eq_true hkey
  exact List.mem_of_find?_eq_some hd

/-- Keys that tell what they stand for have the same first definitions. -/
theorem firstOf_map {ι : Type} [DecidableEq ι] {f : ι → κ} (hf : Function.Injective f)
    (ds : List (ι × α)) (i : ι) :
    firstOf (ds.map fun d => (f d.1, d.2)) (f i) = firstOf ds i := by
  induction ds with
  | nil => rfl
  | cons d ds ih =>
    rw [List.map_cons, firstOf_cons, firstOf_cons, ih]
    simp only [hf.eq_iff]

/-- The table has entries for the keys `s`. -/
structure Holds (t : HTab κ α) (s : Finset κ) : Prop where
  mem : ∀ k, (t.find k).isSome = true ↔ k ∈ s
  filled : t.filled = s.card

variable {t : HTab κ α} {s : Finset κ} {n : Nat}

omit [DecidableEq κ] in
theorem holds_create (size : Option Nat) : Holds (create size : HTab κ α) ∅ where
  mem k := by simp
  filled := rfl

omit [DecidableEq κ] in
theorem Holds.not_mem (h : Holds t s) {k : κ} (hk : t.find k = none) : k ∉ s := by
  rw [← h.mem, hk]
  exact nofun

omit [DecidableEq κ] in
theorem Holds.full_iff (h : Holds t s) (hsize : t.size = some n) : t.full = true ↔ n ≤ s.card := by
  rw [full, hsize, h.filled]
  exact decide_eq_true_iff

theorem define_of_some {d : κ × α} {v : α} (hfind : t.find d.1 = some v) : t.define d = t := by
  unfold find at hfind
  simp [define, enter, hfind]

theorem define_of_full {d : κ × α} (hfind : t.find d.1 = none) (hfull : t.full = true) :
    t.define d = t := by
  rw [define, enter_of_find_none _ hfind, if_pos hfull]
  rfl

/-- There is room for a new key. -/
theorem define_of_room {d : κ × α} (hfind : t.find d.1 = none) (hfull : t.full = false) :
    t.define d =
      { t with filled := t.filled + 1, table := Function.update t.table d.1 (some d.2) } := by
  rw [define, enter_of_find_none _ hfind, if_neg (by simp [hfull])]
  rfl

theorem size_define (t : HTab κ α) (d : κ × α) : (t.define d).size = t.size := by
  cases hfind : t.find d.1 with
  | some v => rw [define_of_some hfind]
  | none =>
    cases hfull : t.full with
    | true => rw [define_of_full hfind hfull]
    | false => rw [define_of_room hfind hfull]

theorem Holds.define_of_room (h : Holds t s) {d : κ × α} (hfind : t.find d.1 = none)
    (hfull : t.full = false) : Holds (t.define d) (insert d.1 s) := by
  rw [HTab.define_of_room hfind hfull]
  refine ⟨?_, ?_⟩
  · intro k
    rw [Finset.mem_insert, ← h.mem]
    by_cases heq : k = d.1 <;> simp [find, heq]
  · rw [Finset.card_insert_of_notMem (h.not_mem hfind), ← h.filled]

/-- **The table never holds more than it has room for.** -/
theorem Holds.defineAll_le (h : Holds t s) (hsize : t.size = some n) (hle : s.card ≤ n)
    (ds : List (κ × α)) : ∃ s', Holds (t.defineAll ds) s' ∧ s'.card ≤ n := by
  induction ds generalizing t s with
  | nil => exact ⟨s, h, hle⟩
  | cons d ds ih =>
    have hsize' : (t.define d).size = some n := (size_define t d).trans hsize
    cases hfind : t.find d.1 with
    | some v => exact ih (by rw [define_of_some hfind]; exact h) hsize' hle
    | none =>
      cases hfull : t.full with
      | true => exact ih (by rw [define_of_full hfind hfull]; exact h) hsize' hle
      | false =>
        refine ih (h.define_of_room hfind hfull) hsize' ?_
        rw [Finset.card_insert_of_notMem (h.not_mem hfind)]
        have hroom := (h.full_iff hsize).not.mp (by simp [hfull])
        exact Nat.lt_of_not_le hroom

/-- **Where there is room for all keys**, the first definition of each is found. -/
theorem Holds.find_defineAll (h : Holds t s) (hsize : t.size = some n) {ds : List (κ × α)}
    (hfits : (s ∪ (ds.map Prod.fst).toFinset).card ≤ n) (k : κ) :
    (t.defineAll ds).find k = (t.find k).or (firstOf ds k) := by
  induction ds generalizing t s with
  | nil => exact (Option.or_none ..).symm
  | cons d ds ih =>
    have hsize' : (t.define d).size = some n := (size_define t d).trans hsize
    rw [List.map_cons, List.toFinset_cons, Finset.union_insert, ← Finset.insert_union] at hfits
    have hstep : Holds (t.define d) (insert d.1 s) ∧
        ((t.define d).find k).or (firstOf ds k) = (t.find k).or (firstOf (d :: ds) k) := by
      cases hfind : t.find d.1 with
      | some v =>
        rw [define_of_some hfind, Finset.insert_eq_self.mpr ((h.mem _).mp (by simp [hfind]))]
        refine ⟨h, ?_⟩
        rw [firstOf_cons]
        by_cases heq : d.1 = k
        · rw [← heq, hfind, Option.some_or, Option.some_or]
        · rw [if_neg heq]
      | none =>
        have hroom : t.full = false := by
          rw [Bool.eq_false_iff, Ne, h.full_iff hsize, Nat.not_le]
          have hle := (Finset.card_le_card Finset.subset_union_left).trans hfits
          rwa [Finset.card_insert_of_notMem (h.not_mem hfind)] at hle
        refine ⟨h.define_of_room hfind hroom, ?_⟩
        rw [HTab.define_of_room hfind hroom, firstOf_cons]
        by_cases heq : d.1 = k
        · subst heq
          rw [hfind]
          simp [find]
        · simp [find, heq, Ne.symm heq]
    exact (ih hstep.1 hsize' hfits).trans hstep.2

theorem find_defineAll {ds : List (κ × α)} (hfits : (ds.map Prod.fst).toFinset.card ≤ n) (k : κ) :
    ((create (some n)).defineAll ds).find k = firstOf ds k := by
  rw [(holds_create (some n)).find_defineAll rfl (by rwa [Finset.empty_union])]
  rfl

/-- Keys that tell what they stand for are as many. -/
theorem card_toFinset_map {ι : Type} [DecidableEq ι] {f : ι → κ} (hf : Function.Injective f)
    (l : List ι) : (l.map f).toFinset.card = l.toFinset.card := by
  have himage : (l.map f).toFinset = l.toFinset.image f := by
    ext k
    simp
  rw [himage, Finset.card_image_of_injective _ hf]

/-- **Otherwise one is not found.** -/
theorem card_le_of_found {ds : List (κ × α)}
    (h : ∀ k ∈ ds.map Prod.fst, (((create (some n)).defineAll ds).find k).isSome = true) :
    (ds.map Prod.fst).toFinset.card ≤ n := by
  obtain ⟨s, hs, hle⟩ := (holds_create (some n)).defineAll_le rfl (Nat.zero_le n) ds
  refine (Finset.card_le_card fun k hk => ?_).trans hle
  exact (hs.mem k).mp (h k (List.mem_toFinset.mp hk))

end HTab
end Search

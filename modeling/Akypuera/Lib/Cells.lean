import Mathlib

/-!
# Arrays that are resized by `realloc`

The contents of a C array, entry by entry: `none` is an entry that is allocated and has not been
written. `realloc` to `n` entries keeps the first `n`, **and so loses entries when it shrinks the
array**; what it adds is not written. Reading is defined where an entry is inside the array and
written, writing where it is inside; everywhere else the answer is `none`, for an access that C
leaves undefined.
-/

set_option autoImplicit false

/-- The entries of an array. -/
abbrev Cells (α : Type) := List (Option α)

namespace Cells

variable {α : Type}

/-- `realloc (a, n * sizeof *a)`. -/
def realloc (a : Cells α) (n : Nat) : Cells α := a.take n ++ List.replicate (n - a.length) none

/-- The same with an `int` for a size. A negative one is far too large for `realloc`, which then
    answers `NULL`. -/
def resize (a : Cells α) (n : Int32) : Cells α := if n < 0 then [] else a.realloc n.toNatClampNeg

/-- `a[i]`, read. -/
def read (a : Cells α) (i : Nat) : Option α := a[i]?.join

/-- `a[i] = v`. -/
def write (a : Cells α) (i : Nat) (v : α) : Option (Cells α) :=
  if i < a.length then some (a.set i (some v)) else none

/-- `a[i]` with an `int` for an index, read. -/
def readAt (a : Cells α) (i : Int32) : Option α :=
  if i < 0 then none else a.read i.toNatClampNeg

/-- `a[i] = v` with an `int` for an index. -/
def writeAt (a : Cells α) (i : Int32) (v : α) : Option (Cells α) :=
  if i < 0 then none else a.write i.toNatClampNeg v

@[simp] theorem read_nil (i : Nat) : read ([] : Cells α) i = none := rfl

theorem length_realloc (a : Cells α) (n : Nat) : (a.realloc n).length = n := by
  simp only [realloc, List.length_append, List.length_take, List.length_replicate]
  omega

theorem toInt_toInt32 {n : UInt32} (h : n.toNat < 2 ^ 31) : n.toInt32.toInt = n.toNat := by
  have hcast : n.toInt32 = Int32.ofNat n.toNat := by
    rw [← UInt32.toInt32_ofNat', UInt32.ofNat_toNat]
  rw [hcast, Int32.toInt_ofNat_of_lt h]

theorem resize_of_toInt {a : Cells α} {n : Int32} {k : Nat} (h : n.toInt = k) :
    a.resize n = a.realloc k := by
  have hneg : ¬ n < 0 := by
    rw [Int32.lt_iff_toInt_lt, h]
    exact not_lt.mpr (Int.natCast_nonneg k)
  rw [resize, if_neg hneg, ← Int32.toNat_toInt, h, Int.toNat_natCast]

theorem readAt_of_toInt {a : Cells α} {i : Int32} {k : Nat} (h : i.toInt = k) :
    a.readAt i = a.read k := by
  have hneg : ¬ i < 0 := by
    rw [Int32.lt_iff_toInt_lt, h]
    exact not_lt.mpr (Int.natCast_nonneg k)
  rw [readAt, if_neg hneg, ← Int32.toNat_toInt, h, Int.toNat_natCast]

theorem writeAt_of_toInt {a : Cells α} {i : Int32} {k : Nat} (v : α) (h : i.toInt = k) :
    a.writeAt i v = a.write k v := by
  have hneg : ¬ i < 0 := by
    rw [Int32.lt_iff_toInt_lt, h]
    exact not_lt.mpr (Int.natCast_nonneg k)
  rw [writeAt, if_neg hneg, ← Int32.toNat_toInt, h, Int.toNat_natCast]

theorem read_of_length_le {a : Cells α} {i : Nat} (h : a.length ≤ i) : a.read i = none := by
  simp [read, h]

theorem lt_of_read {a : Cells α} {i : Nat} {v : α} (h : a.read i = some v) : i < a.length := by
  by_contra hle
  rw [read_of_length_le (Nat.le_of_not_lt hle)] at h
  exact absurd h (by simp)

/-- What `realloc` leaves room for is as it was. -/
theorem read_realloc (a : Cells α) {n i : Nat} (h : i < n) : (a.realloc n).read i = a.read i := by
  unfold read realloc
  by_cases hi : i < a.length
  · rw [List.getElem?_append_left (by rw [List.length_take]; omega), List.getElem?_take_of_lt h]
  · rw [List.getElem?_append_right (by rw [List.length_take]; omega),
      List.getElem?_eq_none (by omega : a.length ≤ i)]
    rw [List.getElem?_replicate]
    split <;> rfl

/-- `realloc` writes nothing. -/
theorem read_of_read_realloc {a : Cells α} {n i : Nat} {v : α} (h : (a.realloc n).read i = some v) :
    a.read i = some v := by
  have hlt := lt_of_read h
  rw [length_realloc] at hlt
  rwa [read_realloc a hlt] at h

theorem read_of_read_resize {a : Cells α} {n : Int32} {i : Nat} {v : α}
    (h : (a.resize n).read i = some v) : a.read i = some v := by
  rw [resize] at h
  split at h
  · exact absurd h (by simp)
  · exact read_of_read_realloc h

theorem write_of_lt {a : Cells α} {i : Nat} (v : α) (h : i < a.length) :
    a.write i v = some (a.set i (some v)) := if_pos h

theorem write_of_length_le {a : Cells α} {i : Nat} (v : α) (h : a.length ≤ i) :
    a.write i v = none := if_neg (by omega)

theorem read_set_self {a : Cells α} {i : Nat} (v : α) (h : i < a.length) :
    read (a.set i (some v)) i = some v := by
  simp [read, h]

theorem read_set_ne {a : Cells α} {i j : Nat} (v : α) (h : j ≠ i) :
    read (a.set i (some v)) j = a.read j := by
  have hne : i ≠ j := fun heq => h heq.symm
  simp [read, List.getElem?_set_ne hne]

/-- What is read after a write was written there, or before. -/
theorem of_read_set {a : Cells α} {i j : Nat} {v w : α}
    (h : read (a.set i (some v)) j = some w) : w = v ∨ a.read j = some w := by
  by_cases heq : j = i
  · subst heq
    have hlt := lt_of_read h
    rw [List.length_set] at hlt
    rw [read_set_self v hlt] at h
    exact .inl (Option.some.inj h).symm
  · rw [read_set_ne v heq] at h
    exact .inr h

/-! ## Resizing to the index that is written -/

/-- The array gets one entry more than index `i`, which is written. -/
def refit (a : Cells α) (i : Nat) (v : α) : Cells α := List.set (a.realloc (i + 1)) i (some v)

/-- **What is behind the index is lost.** -/
theorem read_refit (a : Cells α) (i : Nat) (v : α) (j : Nat) :
    (a.refit i v).read j = if j = i then some v else if j < i then a.read j else none := by
  have hlen : (a.realloc (i + 1)).length = i + 1 := length_realloc a (i + 1)
  unfold refit
  by_cases heq : j = i
  · subst heq
    rw [if_pos rfl, read_set_self v (by omega)]
  · rw [if_neg heq, read_set_ne v heq]
    by_cases hlt : j < i
    · rw [if_pos hlt, read_realloc a (by omega)]
    · rw [if_neg hlt, read_of_length_le (by omega)]

/-- From there on the size is negative, or 0 again. -/
theorem toNatClampNeg_succ_le {self : UInt32} (h : ¬ self.toNat + 1 < 2 ^ 31) :
    (self + 1).toInt32.toNatClampNeg ≤ self.toNat := by
  have hint : (self + 1).toInt32.toInt = ((self + 1).toNat : Int).bmod (2 ^ 32) := by
    rw [← Int32.toInt_toBitVec, UInt32.toBitVec_toInt32, BitVec.toInt_eq_toNat_bmod]
    rfl
  have hlt := self.toNat_lt
  rw [← Int32.toNat_toInt, hint, UInt32.toNat_add, UInt32.toNat_one, Int.bmod_def]
  omega

/-- With `unsigned` indices and `int` sizes there is room below 2^31 - 1. -/
theorem write_resize (a : Cells α) (self : UInt32) (v : α) :
    (a.resize (self + 1).toInt32).write self.toNat v =
      if self.toNat + 1 < 2 ^ 31 then some (a.refit self.toNat v) else none := by
  by_cases hroom : self.toNat + 1 < 2 ^ 31
  · have hsucc : (self + 1).toNat = self.toNat + 1 := by
      rw [UInt32.toNat_add, UInt32.toNat_one, Nat.mod_eq_of_lt (by omega)]
    have hsize : (self + 1).toInt32.toInt = (self.toNat + 1 : Nat) := by
      rw [toInt_toInt32 (by omega), hsucc]
    rw [if_pos hroom, resize_of_toInt hsize,
      write_of_lt v (by rw [length_realloc]; exact Nat.lt_succ_self _)]
    rfl
  · rw [if_neg hroom]
    refine write_of_length_le v ?_
    rw [resize]
    split
    · exact Nat.zero_le _
    · rw [length_realloc]
      exact toNatClampNeg_succ_le hroom

/-! ## Arrays that grow by one entry -/

theorem read_map_some (as : List α) (i : Nat) : read (as.map some) i = as[i]? := by
  rw [read, List.getElem?_map]
  cases as[i]? <;> rfl

/-- An entry that is not written does not count. -/
theorem read_append_none (a : Cells α) (i : Nat) : read (a ++ [none]) i = a.read i := by
  unfold read
  rcases lt_or_ge i a.length with hlt | hge
  · rw [List.getElem?_append_left hlt]
  · rw [List.getElem?_append_right hge, List.getElem?_eq_none hge]
    cases i - a.length <;> rfl

theorem toInt_succ {n : Int32} {k : Nat} (h : n.toInt = k) (hk : k + 1 < 2 ^ 31) :
    (n + 1).toInt = (k + 1 : Nat) := by
  rw [Int32.toInt_add, h, Int32.toInt_one, Int.bmod_def]
  omega

/-- The largest size is followed by the least number. -/
theorem succ_neg {n : Int32} {k : Nat} (h : n.toInt = k) (hk : ¬ k + 1 < 2 ^ 31) : n + 1 < 0 := by
  have hlt := n.toInt_lt
  rw [Int32.lt_iff_toInt_lt, Int32.toInt_add, h, Int32.toInt_one, Int32.toInt_zero, Int.bmod_def]
  omega

/-- **There is one more entry**, or none at all. -/
theorem resize_succ (as : List α) {n : Int32} (h : n.toInt = as.length) :
    resize (as.map some) (n + 1) =
      if as.length + 1 < 2 ^ 31 then as.map some ++ [none] else [] := by
  by_cases hk : as.length + 1 < 2 ^ 31
  · rw [if_pos hk, resize_of_toInt (toInt_succ h hk), realloc,
      List.take_of_length_le (by rw [List.length_map]; omega), List.length_map,
      Nat.add_sub_cancel_left]
    rfl
  · rw [if_neg hk, resize, if_pos (succ_neg h hk)]

theorem write_push (as : List α) (v : α) :
    write (as.map some ++ [none]) as.length v = some ((as ++ [v]).map some) := by
  rw [write_of_lt v (by simp), List.set_append_right _ _ (by simp)]
  simp

end Cells

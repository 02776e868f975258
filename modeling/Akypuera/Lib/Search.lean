import Mathlib

/-!
# `<search.h>`: the hash table and the search tree, as finite maps

The two containers of the C library, over arbitrary keys and data. Both are read as *exact
finite maps*: a lookup finds precisely the entry that was entered under an equal key. What
distinguishes them is what happens on insertion.

* `hsearch_r` works on a table allocated once, by `hcreate_r`. Entering a new key fails when
  the table is full, and the table never shrinks.
* `tsearch` always succeeds, but **does not overwrite**: on a key that is already there it
  answers with the old node and drops the new one.

Data in a hash table is reached through the pointer `hsearch_r` answers with, so a program
can change it in place; `HTab.set` is that write.
-/

set_option autoImplicit false

namespace Search

variable {κ α : Type} [DecidableEq κ]

/-! ## `hsearch_r` -/

/-- `struct hsearch_data`. `size = none` is a table that never fills up. -/
structure HTab (κ α : Type) where
  size : Option Nat
  filled : Nat
  table : κ → Option α

/-- How many entries `hcreate_r (nel, …)` makes room for: the least prime from the next odd number
    on. -/
def hcreateSize (nel : Nat) : Nat := Nat.find (Nat.exists_infinite_primes (nel ||| 1))

/-- From 1001 on, the first is 1009. -/
theorem hcreateSize_1000 : hcreateSize 1000 = 1009 := by
  refine (Nat.find_eq_iff _).mpr ⟨⟨by decide, by norm_num⟩, fun n hn => ?_⟩
  rintro ⟨hle, hprime⟩
  have hlow : 1001 ≤ n := hle
  interval_cases n <;> revert hprime <;> norm_num

namespace HTab

/-- `hcreate_r`: an empty table. -/
def create (size : Option Nat) : HTab κ α := { size := size, filled := 0, table := fun _ => none }

/-- `hsearch_r (…, FIND, …)`. -/
def find (t : HTab κ α) (k : κ) : Option α := t.table k

/-- No room is left for a new key. -/
def full (t : HTab κ α) : Bool :=
  match t.size with
  | none => false
  | some s => decide (s ≤ t.filled)

/-- `hsearch_r (…, ENTER, …)`: `none` is the failure on a full table; an entry that is
    already there is answered with, unchanged. -/
def enter (t : HTab κ α) (k : κ) (v : α) : Option (HTab κ α) :=
  match t.table k with
  | some _ => some t
  | none =>
      if t.full then none
      else some { t with filled := t.filled + 1, table := Function.update t.table k (some v) }

/-- A write through the data pointer of the entry for `k`. -/
def set (t : HTab κ α) (k : κ) (v : α) : HTab κ α :=
  { t with table := Function.update t.table k (some v) }

omit [DecidableEq κ] in
@[simp] theorem find_create (size : Option Nat) (k : κ) :
    (create size : HTab κ α).find k = none := rfl

@[simp] theorem find_set_self (t : HTab κ α) (k : κ) (v : α) : (t.set k v).find k = some v := by
  simp [find, set]

theorem find_set_ne (t : HTab κ α) {k k' : κ} (v : α) (h : k' ≠ k) :
    (t.set k v).find k' = t.find k' := by
  simp [find, set, h]

/-- Writing what is there changes nothing. -/
theorem set_of_find {t : HTab κ α} {k : κ} {v : α} (h : t.find k = some v) : t.set k v = t := by
  unfold find at h
  rw [set, ← h, Function.update_eq_self]

theorem enter_of_find_none {t : HTab κ α} {k : κ} (v : α) (h : t.find k = none) :
    t.enter k v =
      if t.full then none
      else some { t with filled := t.filled + 1, table := Function.update t.table k (some v) } := by
  unfold find at h
  simp [enter, h]

/-- A new key enters a table that has room, and nothing else changes. -/
theorem enter_of_room {t : HTab κ α} {k : κ} (v : α) (h : t.find k = none)
    (hfull : t.full = false) :
    ∃ t', t.enter k v = some t' ∧ t'.size = t.size ∧ t'.find k = some v ∧
      ∀ k', k' ≠ k → t'.find k' = t.find k' := by
  rw [enter_of_find_none v h, hfull]
  exact ⟨_, rfl, rfl, by simp [find], fun k' hk => by simp [find, hk]⟩

/-- What is entered later leaves the entries that are there. -/
theorem find_enter_of_some {t : HTab κ α} {k : κ} {w : α} (h : t.find k = some w) (k' : κ) (v : α) :
    ((t.enter k' v).getD t).find k = some w := by
  cases hk' : t.find k' with
  | some w' =>
    unfold find at hk'
    simp [enter, hk', h]
  | none =>
    have hne : k ≠ k' := fun heq => by rw [heq, hk'] at h; cases h
    rw [enter_of_find_none v hk']
    split
    · exact h
    · simpa [find, hne] using h

/-- Nor does it define another key. -/
theorem find_enter_ne (t : HTab κ α) {k k' : κ} (v : α) (h : k ≠ k') :
    ((t.enter k' v).getD t).find k = t.find k := by
  cases hk' : t.find k' with
  | some w' =>
    unfold find at hk'
    simp [enter, hk']
  | none =>
    rw [enter_of_find_none v hk']
    split
    · rfl
    · simp [find, h]

omit [DecidableEq κ] in
/-- A table without a size never fills up. -/
theorem full_of_size_none {t : HTab κ α} (hs : t.size = none) : t.full = false := by
  simp [full, hs]

/-- Two tables with the same entries, whatever is behind them. -/
structure SameKeys (t t' : HTab κ α) : Prop where
  size : t.size = t'.size
  filled : t.filled = t'.filled
  entry : ∀ k, (t.find k).isSome = (t'.find k).isSome

omit [DecidableEq κ] in
theorem SameKeys.refl (t : HTab κ α) : SameKeys t t := ⟨rfl, rfl, fun _ => rfl⟩

/-- A write through a pointer into the table keeps its entries. -/
theorem SameKeys.set {t t' : HTab κ α} (h : SameKeys t t') {k : κ} (v : α)
    (hk : (t.find k).isSome = true) : SameKeys (t.set k v) t' where
  size := h.size
  filled := h.filled
  entry k' := by
    by_cases hne : k' = k
    · subst hne; rw [find_set_self, ← h.entry, hk]; rfl
    · rw [find_set_ne t v hne, h.entry]

/-- What enters one enters the other. -/
theorem SameKeys.enter {t t' : HTab κ α} (h : SameKeys t t') (k : κ) (v : α) :
    SameKeys ((t.enter k v).getD t) ((t'.enter k v).getD t') := by
  have hfull : t.full = t'.full := by simp only [full, h.size, h.filled]
  have hfind := h.entry k
  cases hk : t.find k with
  | some w =>
    obtain ⟨w', hk'⟩ := Option.isSome_iff_exists.mp (hfind ▸ Option.isSome_iff_exists.mpr ⟨w, hk⟩)
    have he : t.enter k v = some t := by
      unfold HTab.find at hk
      simp [HTab.enter, hk]
    have he' : t'.enter k v = some t' := by
      unfold HTab.find at hk'
      simp [HTab.enter, hk']
    rw [he, he']
    exact h
  | none =>
    have hk' : t'.find k = none := by
      rw [hk] at hfind
      exact Option.isSome_eq_false_iff.mp hfind.symm |> Option.isNone_iff_eq_none.mp
    rw [enter_of_find_none v hk, enter_of_find_none v hk', ← hfull]
    cases t.full with
    | true => exact h
    | false =>
      refine ⟨h.size, congrArg (· + 1) h.filled, ?_⟩
      intro k'
      by_cases hne : k' = k
      · subst hne; simp [HTab.find]
      · simpa [HTab.find, hne] using h.entry k'

section Related

variable {β : Type} {R : α → β → Prop} {t : HTab κ α} {t' : HTab κ β}

/-- Two tables with the same keys and, under each, data that go together. -/
structure Related (R : α → β → Prop) (t : HTab κ α) (t' : HTab κ β) : Prop where
  size : t.size = t'.size
  filled : t.filled = t'.filled
  entry : ∀ k, Option.Rel R (t.find k) (t'.find k)

omit [DecidableEq κ] in
theorem Related.create (size : Option Nat) :
    Related R (create size : HTab κ α) (create size : HTab κ β) := ⟨rfl, rfl, fun _ => .none⟩

omit [DecidableEq κ] in
theorem Related.full (h : Related R t t') : t.full = t'.full := by
  simp only [HTab.full, h.size, h.filled]

theorem Related.set (h : Related R t t') (k : κ) {v : α} {v' : β} (hv : R v v') :
    Related R (t.set k v) (t'.set k v') where
  size := h.size
  filled := h.filled
  entry k' := by
    by_cases hne : k' = k
    · subst hne
      rw [find_set_self, find_set_self]
      exact .some hv
    · rw [find_set_ne t v hne, find_set_ne t' v' hne]
      exact h.entry k'

omit [DecidableEq κ] in
theorem Related.find_none (h : Related R t t') {k : κ} (hk : t'.find k = none) : t.find k = none := by
  have hentry := h.entry k
  rw [hk] at hentry
  cases hfind : t.find k with
  | none => rfl
  | some v =>
    rw [hfind] at hentry
    cases hentry

omit [DecidableEq κ] in
theorem Related.find_some (h : Related R t t') {k : κ} {v' : β} (hk : t'.find k = some v') :
    ∃ v, t.find k = some v ∧ R v v' := by
  have hentry := h.entry k
  rw [hk] at hentry
  cases hfind : t.find k with
  | none =>
    rw [hfind] at hentry
    cases hentry
  | some v =>
    rw [hfind] at hentry
    cases hentry with
    | some hv => exact ⟨v, rfl, hv⟩

/-- A new key enters both or neither. -/
theorem Related.enter (h : Related R t t') {k : κ} (hk : t'.find k = none) {v : α} {v' : β}
    (hv : R v v') : Option.Rel (Related R) (t.enter k v) (t'.enter k v') := by
  rw [enter_of_find_none v (h.find_none hk), enter_of_find_none v' hk, h.full]
  split
  · exact .none
  · refine .some ⟨h.size, congrArg (· + 1) h.filled, fun k' => ?_⟩
    by_cases hne : k' = k
    · subst hne
      simpa [find] using Option.Rel.some hv
    · simpa [find, hne] using h.entry k'

end Related

end HTab

/-! ## `tsearch` -/

/-- The nodes of a search tree, by key. -/
abbrev Tree (κ α : Type) := κ → Option α

namespace Tree

/-- The `NULL` root. -/
def empty : Tree κ α := fun _ => none

/-- `tsearch`: a key that is already in the tree keeps its node. -/
def tsearch (t : Tree κ α) (k : κ) (v : α) : Tree κ α :=
  match t k with
  | some _ => t
  | none => Function.update t k (some v)

/-- `tdelete`. -/
def tdelete (t : Tree κ α) (k : κ) : Tree κ α := Function.update t k none

/-- `tfind`. -/
def tfind (t : Tree κ α) (k : κ) : Option α := t k

omit [DecidableEq κ] in
@[simp] theorem tfind_empty (k : κ) : (empty : Tree κ α).tfind k = none := rfl

/-- The first insertion under a key is the one that counts. -/
theorem tfind_tsearch_self (t : Tree κ α) (k : κ) (v : α) :
    (t.tsearch k v).tfind k = some ((t.tfind k).getD v) := by
  cases h : t k with
  | some w => simp [tsearch, tfind, h]
  | none => simp [tsearch, tfind, h]

theorem tfind_tsearch_ne (t : Tree κ α) {k k' : κ} (v : α) (h : k' ≠ k) :
    (t.tsearch k v).tfind k' = t.tfind k' := by
  cases hk : t k with
  | some w => simp [tsearch, tfind, hk]
  | none => simp [tsearch, tfind, hk, h]

@[simp] theorem tfind_tdelete_self (t : Tree κ α) (k : κ) : (t.tdelete k).tfind k = none := by
  simp [tdelete, tfind]

theorem tfind_tdelete_ne (t : Tree κ α) {k k' : κ} (h : k' ≠ k) :
    (t.tdelete k).tfind k' = t.tfind k' := by
  simp [tdelete, tfind, h]

end Tree

end Search

import Akypuera.Keys.Queue

/-!
# The count of a queue, as an `int`

`enqueue` and `dequeue` once more, with the `int n` that `desc_t` has. `n++` may leave the range of
an `int`, and C does not say what happens then. While there is room for one more element the two
functions do what they do with a number that has no end (`IntDesc.enqueue_counts`,
`IntDesc.dequeue_counts`), so that all there is to know about the links is known already.
-/

set_option autoImplicit false

namespace Akypuera
namespace Keys

open CText Chain

/-- `desc_t`. -/
structure IntDesc where
  first : Option Addr
  last : Option Addr
  n : Int32

def IntDesc.empty : IntDesc := { first := none, last := none, n := 0 }

/-- `n++` and `n--`. -/
def increment (n : Int32) : Option Int32 := if n = Int32.maxValue then none else some (n + 1)

def decrement (n : Int32) : Option Int32 := if n = Int32.minValue then none else some (n - 1)

/-- `enqueue (desc, new)`. -/
def IntDesc.enqueue (h : Heap Elem) (desc : IntDesc) (new : Addr) :
    Option (Heap Elem × IntDesc) := do
  let (h, desc) ← (if desc.n = 0 then do
      let e ← h new
      let h := Function.update h new (some { e with head := none, tail := none })
      return (h, { desc with first := some new, last := some new })
    else do
      let oldLast ← desc.last
      let l ← h oldLast
      let h := Function.update h oldLast (some { l with tail := some new })
      let e ← h new
      let h := Function.update h new (some { e with head := some oldLast, tail := none })
      return (h, { desc with last := some new }) : Option (Heap Elem × IntDesc))
  let n ← increment desc.n
  return (h, { desc with n := n })

/-- `dequeue (desc)`. -/
def IntDesc.dequeue (h : Heap Elem) (desc : IntDesc) :
    Option (Heap Elem × IntDesc × Option Addr) :=
  if desc.n = 0 then some (h, desc, none)
  else do
    let ret ← desc.first
    let r ← h ret
    let (h, desc) ← (match r.tail with
      | some newFirst => do
          let f ← h newFirst
          some (Function.update h newFirst (some { f with head := none }),
            { desc with first := some newFirst })
      | none => some (h, { desc with first := none, last := none }) :
        Option (Heap Elem × IntDesc))
    let n ← decrement desc.n
    let r ← h ret
    let h := Function.update h ret (some { r with head := none, tail := none })
    return (h, { desc with n := n }, some ret)

/-- The descriptor with its `int`, and the one that counts without end. -/
structure Counts (desc : IntDesc) (d : Desc) : Prop where
  first : desc.first = d.first
  last : desc.last = d.last
  n : desc.n.toInt = d.n

theorem Counts.empty : Counts IntDesc.empty Desc.empty := ⟨rfl, rfl, rfl⟩

theorem increment_of_lt {n : Int32} {k : Nat} (hn : n.toInt = k) (hlt : k + 1 < 2 ^ 31) :
    increment n = some (n + 1) ∧ (n + 1).toInt = (k + 1 : Nat) := by
  have hsum : (n + 1).toInt = n.toInt + 1 := by
    rw [Int32.toInt_add, show (1 : Int32).toInt = 1 from rfl]
    exact Int.bmod_eq_of_le (by omega) (by omega)
  refine ⟨if_neg ?_, by omega⟩
  rintro rfl
  rw [Int32.toInt_maxValue] at hn
  omega

theorem decrement_of_pos {n : Int32} {k : Nat} (hn : n.toInt = k) (hpos : 0 < k) :
    decrement n = some (n - 1) ∧ (n - 1).toInt = (k - 1 : Nat) := by
  have hlt := n.toInt_lt
  have hdiff : (n - 1).toInt = n.toInt - 1 := by
    rw [Int32.toInt_sub, show (1 : Int32).toInt = 1 from rfl]
    exact Int.bmod_eq_of_le (by omega) (by omega)
  refine ⟨if_neg ?_, by omega⟩
  rintro rfl
  rw [Int32.toInt_minValue] at hn
  omega

variable {h h' : Heap Elem} {desc : IntDesc} {d d' : Desc} {new : Addr} {ret : Option Addr}

theorem Counts.n_eq_zero_iff (hc : Counts desc d) : desc.n = 0 ↔ d.n = 0 := by
  rw [← Int32.toInt_inj, hc.n]
  exact Int.natCast_eq_zero

/-- **While there is room for one more, `enqueue` counts.** -/
theorem IntDesc.enqueue_counts (hc : Counts desc d) (hlt : d.n + 1 < 2 ^ 31)
    (hcall : Keys.enqueue h d new = some (h', d')) :
    ∃ desc', desc.enqueue h new = some (h', desc') ∧ Counts desc' d' := by
  obtain ⟨hincrement, hn⟩ := increment_of_lt hc.n hlt
  unfold Keys.enqueue at hcall
  unfold IntDesc.enqueue
  by_cases hzero : d.n = 0
  · rw [if_pos hzero] at hcall
    rw [if_pos (hc.n_eq_zero_iff.mpr hzero)]
    simp only [Option.bind_eq_bind, Option.bind_eq_some_iff] at hcall
    obtain ⟨e, he, hret⟩ := hcall
    cases hret
    refine ⟨{ first := some new, last := some new, n := desc.n + 1 }, ?_, rfl, rfl, hn⟩
    simp [he, hincrement]
  · rw [if_neg hzero] at hcall
    rw [if_neg fun hno => hzero (hc.n_eq_zero_iff.mp hno)]
    simp only [Option.bind_eq_bind, Option.bind_eq_some_iff] at hcall
    obtain ⟨oldLast, hlast, l, hl, e, he, hret⟩ := hcall
    cases hret
    rw [← hc.last] at hlast
    refine ⟨{ desc with last := some new, n := desc.n + 1 }, ?_, hc.first, rfl, hn⟩
    simp [hlast, hl, he, hincrement]

/-- **`dequeue` counts.** -/
theorem IntDesc.dequeue_counts (hc : Counts desc d)
    (hcall : Keys.dequeue h d = some (h', d', ret)) :
    ∃ desc', desc.dequeue h = some (h', desc', ret) ∧ Counts desc' d' := by
  unfold Keys.dequeue at hcall
  unfold IntDesc.dequeue
  by_cases hzero : d.n = 0
  · rw [if_pos hzero] at hcall
    rw [if_pos (hc.n_eq_zero_iff.mpr hzero)]
    cases hcall
    exact ⟨desc, rfl, hc⟩
  · obtain ⟨hdecrement, hn⟩ := decrement_of_pos hc.n (Nat.pos_of_ne_zero hzero)
    rw [if_neg hzero] at hcall
    rw [if_neg fun hno => hzero (hc.n_eq_zero_iff.mp hno)]
    simp only [Option.bind_eq_bind, Option.bind_eq_some_iff] at hcall
    obtain ⟨first, hfirst, r, hr, ⟨h₁, d₁⟩, hstep, r', hr', hret⟩ := hcall
    rw [← hc.first] at hfirst
    cases htail : r.tail with
    | none =>
      rw [htail] at hstep
      cases hstep
      cases hret
      refine ⟨{ first := none, last := none, n := desc.n - 1 }, ?_, rfl, rfl, hn⟩
      obtain rfl : r = r' := Option.some.inj (hr.symm.trans hr')
      simp [hfirst, hr, htail, hdecrement]
    | some newFirst =>
      rw [htail] at hstep
      simp only [Option.bind_eq_some_iff] at hstep
      obtain ⟨f, hf, hstep⟩ := hstep
      cases hstep
      cases hret
      refine ⟨{ desc with first := some newFirst, n := desc.n - 1 }, ?_, rfl, hc.last, hn⟩
      dsimp only at hr'
      simp [hfirst, hr, htail, hf, hdecrement]
      rw [hr', Option.bind_some]

/-- **Where there is no room for one more, `enqueue` overflows.** -/
theorem IntDesc.enqueue_overflow (hc : Counts desc d) (hge : 2 ^ 31 ≤ d.n + 1) :
    desc.enqueue h new = none := by
  have hmax : desc.n = Int32.maxValue := by
    have hlt := desc.n.toInt_lt
    have hn := hc.n
    apply Int32.toInt_inj.mp
    rw [Int32.toInt_maxValue]
    omega
  have hover : increment desc.n = none := if_pos hmax
  unfold IntDesc.enqueue
  rw [Option.bind_eq_bind, Option.bind_eq_none_iff]
  rintro ⟨h', desc'⟩ hlink
  -- the links do not touch the count
  have hn : desc'.n = desc.n := by
    split at hlink
    · simp only [Option.bind_eq_bind, Option.bind_eq_some_iff] at hlink
      obtain ⟨e, -, hret⟩ := hlink
      cases hret
      rfl
    · simp only [Option.bind_eq_bind, Option.bind_eq_some_iff] at hlink
      obtain ⟨oldLast, -, l, -, e, -, hret⟩ := hlink
      cases hret
      rfl
  simp [hn, hover]

/-- Without an answer, `dequeue` changed nothing. -/
theorem IntDesc.dequeue_none {desc' : IntDesc} (hcall : desc.dequeue h = some (h', desc', none)) :
    h' = h ∧ desc' = desc := by
  unfold IntDesc.dequeue at hcall
  split at hcall
  · cases hcall
    exact ⟨rfl, rfl⟩
  · simp only [Option.bind_eq_bind, Option.bind_eq_some_iff] at hcall
    obtain ⟨_, -, _, -, _, -, _, -, _, -, heq⟩ := hcall
    cases heq

/-! ## Descriptors -/

/-- What there is to a descriptor of a queue: how it begins, the two functions, and where its elements
    begin and how many they are. The store is the same for both kinds. -/
class Descriptor (δ : Type) where
  empty : δ
  enqueue : Heap Elem → δ → Addr → Option (Heap Elem × δ)
  dequeue : Heap Elem → δ → Option (Heap Elem × δ × Option Addr)
  first : δ → Option Addr
  count : δ → Nat
  /-- Without an answer, nothing is changed. -/
  dequeue_none {h h' : Heap Elem} {d d' : δ} : dequeue h d = some (h', d', none) → h' = h ∧ d' = d

instance : Descriptor IntDesc where
  empty := IntDesc.empty
  enqueue := IntDesc.enqueue
  dequeue := IntDesc.dequeue
  first := IntDesc.first
  count desc := desc.n.toInt.toNat
  dequeue_none := IntDesc.dequeue_none

instance : Descriptor Desc where
  empty := Desc.empty
  enqueue := Keys.enqueue
  dequeue := Keys.dequeue
  first := Desc.first
  count := Desc.n
  dequeue_none := Keys.dequeue_none

@[simp] theorem empty_desc : (Descriptor.empty : Desc) = Desc.empty := rfl

@[simp] theorem enqueue_desc (h : Heap Elem) (d : Desc) (new : Addr) :
    Descriptor.enqueue h d new = Keys.enqueue h d new := rfl

@[simp] theorem dequeue_desc (h : Heap Elem) (d : Desc) :
    Descriptor.dequeue h d = Keys.dequeue h d := rfl

@[simp] theorem first_desc (d : Desc) : Descriptor.first d = d.first := rfl

@[simp] theorem count_desc (d : Desc) : Descriptor.count d = d.n := rfl

end Keys
end Akypuera

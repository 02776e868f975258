import Akypuera.Lib.Chain
import Akypuera.Lib.CText

/-!
# The queue of one rank pair (`aky_keys.c`, `enqueue` and `dequeue`)

`elem_t` is a doubly linked node and `desc_t` holds the two ends and a count. Both functions
dereference pointers, so both are partial: `none` is a crash. `DescOk` is the invariant under
which they do not crash; it names the addresses of the chain, and the two lemmas below say
what happens to that list. Each comes with its frame: nodes outside the chain, and the text
of every node, stay as they were.

`int n` is kept as a natural number; it counts elements that are allocated at the same time. (With
the `int` that it is, the two functions are in `Akypuera.Keys.Counter`.)
-/

set_option autoImplicit false

namespace Akypuera
namespace Keys

open CText Chain

/-- `elem_t`. -/
structure Elem where
  data : Str
  head : Option Addr
  tail : Option Addr

/-- `desc_t`. -/
structure Desc where
  first : Option Addr
  last : Option Addr
  n : Nat

/-- The descriptor `aky_put_key` allocates for a new rank pair. -/
def Desc.empty : Desc := { first := none, last := none, n := 0 }

/-- `enqueue (desc, new)`. -/
def enqueue (h : Heap Elem) (desc : Desc) (new : Addr) : Option (Heap Elem × Desc) :=
  if desc.n = 0 then do
    let e ← h new
    let h := Function.update h new (some { e with head := none, tail := none })
    return (h, { first := some new, last := some new, n := desc.n + 1 })
  else do
    let oldLast ← desc.last
    let l ← h oldLast
    let h := Function.update h oldLast (some { l with tail := some new })
    let e ← h new
    let h := Function.update h new (some { e with head := some oldLast, tail := none })
    return (h, { desc with last := some new, n := desc.n + 1 })

/-- `dequeue (desc)`: the outer `none` is a crash, the inner one the answer of an empty
    queue. -/
def dequeue (h : Heap Elem) (desc : Desc) : Option (Heap Elem × Desc × Option Addr) :=
  if desc.n = 0 then some (h, desc, none)
  else do
    let ret ← desc.first
    let r ← h ret
    let (h, desc) ← (match r.tail with
      | some newFirst => do
          let f ← h newFirst
          some (Function.update h newFirst (some { f with head := none }),
            { desc with first := some newFirst })
      | none => some (h, { desc with first := none, last := none }) : Option (Heap Elem × Desc))
    let desc := { desc with n := desc.n - 1 }
    let r ← h ret
    let h := Function.update h ret (some { r with head := none, tail := none })
    return (h, desc, some ret)

/-- Without an answer, it changed nothing. -/
theorem dequeue_none {h h' : Heap Elem} {desc desc' : Desc}
    (hd : dequeue h desc = some (h', desc', none)) : h' = h ∧ desc' = desc := by
  unfold dequeue at hd
  split at hd
  · cases hd
    exact ⟨rfl, rfl⟩
  · simp only [Option.bind_eq_bind, Option.bind_eq_some_iff] at hd
    obtain ⟨_, -, _, -, _, -, _, -, heq⟩ := hd
    cases heq

/-- The nodes at `as` are linked both ways through `head` and `tail`. -/
abbrev LinkedElems (h : Heap Elem) : Option Addr → List Addr → Prop :=
  Linked Elem.head Elem.tail h

/-- A descriptor and the chain it stands for. -/
structure DescOk (h : Heap Elem) (desc : Desc) (as : List Addr) : Prop where
  n : desc.n = as.length
  first : desc.first = as.head?
  last : desc.last = as.getLast?
  linked : LinkedElems h none as
  nodup : as.Nodup

theorem DescOk.empty (h : Heap Elem) : DescOk h Desc.empty [] :=
  ⟨rfl, rfl, rfl, trivial, List.nodup_nil⟩

/-- Writes outside the chain do not matter. -/
theorem DescOk.congr {h h' : Heap Elem} {desc : Desc} {as : List Addr}
    (hd : DescOk h desc as) (hagree : ∀ a ∈ as, h' a = h a) : DescOk h' desc as :=
  { hd with linked := hd.linked.congr hagree }

/-- The text of a node, whatever its links. -/
def text (h : Heap Elem) (a : Addr) : Option Str := (h a).map Elem.data

/-- Every element of a chain has a text. -/
theorem DescOk.length_texts {h : Heap Elem} {desc : Desc} {as : List Addr} (hd : DescOk h desc as) :
    (as.filterMap (text h)).length = as.length := by
  have hsome : ∀ a ∈ as, (text h a).isSome = true := fun a ha => by
    simp [text, hd.linked.isSome a ha]
  clear hd
  induction as with
  | nil => rfl
  | cons a as ih =>
    obtain ⟨s, hs⟩ := Option.isSome_iff_exists.mp (hsome a (by simp))
    rw [List.filterMap_cons_some hs, List.length_cons, List.length_cons,
      ih fun b hb => hsome b (List.mem_cons_of_mem _ hb)]

/-- Rewriting a node's links leaves every text alone. -/
theorem text_update {h : Heap Elem} {a : Addr} {e : Elem} (e' : Elem) (he : h a = some e)
    (hd : e'.data = e.data) : text (Function.update h a (some e')) = text h := by
  funext b
  by_cases hb : b = a
  · subst hb; simp [text, he, hd]
  · simp [text, hb]

/-- **`enqueue` appends** a node that is allocated and not in the chain. -/
theorem enqueue_spec {h : Heap Elem} {desc : Desc} {as : List Addr} {new : Addr} {e : Elem}
    (hd : DescOk h desc as) (hnew : h new = some e) (hfresh : new ∉ as) :
    ∃ h' desc', enqueue h desc new = some (h', desc') ∧ DescOk h' desc' (as ++ [new]) ∧
      (∀ a, a ∉ as ++ [new] → h' a = h a) ∧ text h' = text h := by
  rcases List.eq_nil_or_concat as with rfl | ⟨front, last, rfl⟩
  · have hn : desc.n = 0 := hd.n
    refine ⟨Function.update h new (some { e with head := none, tail := none }),
      { first := some new, last := some new, n := 1 }, by simp [enqueue, hn, hnew], ?_, ?_,
      text_update _ hnew rfl⟩
    · exact ⟨rfl, rfl, rfl, ⟨_, Function.update_self .., rfl, rfl, trivial⟩, by simp⟩
    · intro a ha
      have hne : a ≠ new := fun h => ha (by simp [h])
      simp [hne]
  · simp only [List.concat_eq_append] at hd hfresh ⊢
    have hn : desc.n ≠ 0 := by rw [hd.n]; simp
    have hlast : desc.last = some last := by rw [hd.last]; simp
    obtain ⟨l, hl⟩ := Option.isSome_iff_exists.mp (hd.linked.isSome last (by simp))
    have hne : new ≠ last := fun h => hfresh (by simp [h])
    have hnewfront : new ∉ front := fun h => hfresh (by simp [h])
    have hlastfront : last ∉ front := by
      have := hd.nodup
      rw [List.nodup_append] at this
      exact fun h => this.2.2 last h last (by simp) rfl
    have hnew' : Function.update h last (some { l with tail := some new }) new = some e := by
      simp [hne, hnew]
    refine ⟨Function.update (Function.update h last (some { l with tail := some new })) new
        (some { e with head := some last, tail := none }),
      { desc with last := some new, n := desc.n + 1 },
      by simp [enqueue, hn, hlast, hl, hnew'], ?_, ?_, ?_⟩
    · refine ⟨by simp [hd.n], ?_, by simp, ?_, ?_⟩
      · rw [hd.first]; cases front <;> rfl
      · rw [List.append_assoc]
        exact hd.linked.snoc { l with tail := some new } { e with head := some last, tail := none }
          hl rfl rfl rfl rfl hlastfront hnewfront hne
      · exact List.nodup_append.mpr ⟨hd.nodup, by simp, fun a ha b hb => by
          rw [List.mem_singleton.mp hb]; exact fun h => hfresh (h ▸ ha)⟩
    · intro a ha
      have hal : a ≠ last := fun h => ha (by simp [h])
      have han : a ≠ new := fun h => ha (by simp [h])
      simp [hal, han]
    · exact (text_update { e with head := some last, tail := none } hnew' rfl).trans
        (text_update { l with tail := some new } hl rfl)

/-- **`dequeue` on an empty queue** answers `NULL` and touches nothing. -/
theorem dequeue_nil {h : Heap Elem} {desc : Desc} (hd : DescOk h desc []) :
    dequeue h desc = some (h, desc, none) := by
  have hn : desc.n = 0 := hd.n
  simp [dequeue, hn]

/-- **`dequeue` drops the first node** and answers with it. -/
theorem dequeue_cons {h : Heap Elem} {desc : Desc} {a : Addr} {as : List Addr}
    (hd : DescOk h desc (a :: as)) :
    ∃ h' desc', dequeue h desc = some (h', desc', some a) ∧ DescOk h' desc' as ∧
      (∀ b, b ∉ a :: as → h' b = h b) ∧ text h' = text h := by
  have hn : desc.n ≠ 0 := by rw [hd.n]; simp
  have hfirst : desc.first = some a := hd.first
  obtain ⟨e, he, hp, ht, hrest⟩ := hd.linked
  have hnd := List.nodup_cons.mp hd.nodup
  cases as with
  | nil =>
    have htail : e.tail = none := ht
    refine ⟨Function.update h a (some { e with head := none, tail := none }),
      { first := none, last := none, n := desc.n - 1 },
      by simp [dequeue, hn, hfirst, he, htail], ?_, ?_, text_update _ he rfl⟩
    · exact ⟨by simp [hd.n], rfl, rfl, trivial, List.nodup_nil⟩
    · intro b hb
      have hba : b ≠ a := fun h => hb (by simp [h])
      simp [hba]
  | cons b as =>
    have htail : e.tail = some b := ht
    obtain ⟨f, hf, _⟩ := hrest
    have hab : a ≠ b := fun h => hnd.1 (by simp [h])
    have he' : Function.update h b (some { f with head := none }) a = some e := by
      simp [hab, he]
    refine ⟨Function.update (Function.update h b (some { f with head := none })) a
        (some { e with head := none, tail := none }),
      { desc with first := some b, n := desc.n - 1 },
      by simp [dequeue, hn, hfirst, he, htail, hf, hab], ?_, ?_, ?_⟩
    · refine ⟨by simp [hd.n], rfl, ?_, ?_, hnd.2⟩
      · simp [hd.last]
      · refine hd.linked.behead { f with head := none } hf (by simp [hab.symm]) rfl rfl ?_
        intro c hc
        have hca : c ≠ a := fun h => hnd.1 (by simp [← h, hc])
        have hcb : c ≠ b := fun h => (List.nodup_cons.mp hnd.2).1 (h ▸ hc)
        simp [hca, hcb]
    · intro c hc
      have hca : c ≠ a := fun h => hc (by simp [h])
      have hcb : c ≠ b := fun h => hc (by simp [h])
      simp [hca, hcb]
    · exact (text_update { e with head := none, tail := none } he' rfl).trans
        (text_update { f with head := none } hf rfl)

end Keys
end Akypuera

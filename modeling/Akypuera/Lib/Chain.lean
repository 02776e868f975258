import Mathlib

/-!
# Doubly linked chains in a heap

A heap maps addresses to nodes; a node type says where its two pointers are (`prev`, `next`).
`Linked h p as` reads: starting behind `p`, the nodes at the addresses `as` form a chain,
each pointing back at its predecessor and forward at its successor, with `none` at the far
end.

The chain is described from outside, by the list of its addresses, so an operation's effect
is a statement about that list: `Linked.snoc` adds one node at the end by rewriting the last
node's forward pointer, `Linked.behead` drops the first by clearing the second node's
backward pointer. Everything a heap write elsewhere could disturb is excluded by
`Linked.congr`: only the nodes of the chain matter.

What one sees from inside follows from the list: the nodes that `next` leads to are its members
(`Linked.reachable_iff`), and the two pointers of a node are its neighbours in it
(`Linked.neighbours`).
-/

set_option autoImplicit false

namespace Chain

/-- An address; `NULL` is `none` in an `Option Addr`. -/
abbrev Addr := Nat

/-- The allocated nodes. -/
abbrev Heap (β : Type) := Addr → Option β

variable {β : Type} (prev next : β → Option Addr)

/-- The nodes at `as` are linked both ways, the first one back to `p`. -/
def Linked (h : Heap β) : Option Addr → List Addr → Prop
  | _, [] => True
  | p, a :: as =>
      ∃ e, h a = some e ∧ prev e = p ∧ next e = as.head? ∧ Linked h (some a) as

/-- The addresses reached from `start` along `next`, at most `n` of them. -/
def walk (h : Heap β) : Nat → Option Addr → List Addr
  | 0, _ => []
  | _ + 1, none => []
  | n + 1, some a =>
      match h a with
      | none => []
      | some e => a :: walk h n (next e)

variable {prev next}

theorem Linked.congr {h h' : Heap β} : ∀ {as : List Addr} {p : Option Addr},
    (∀ a ∈ as, h' a = h a) → Linked prev next h p as → Linked prev next h' p as
  | [], _, _, _ => trivial
  | a :: as, _, hagree, hl => by
    obtain ⟨e, he, hp, hn, hrest⟩ := hl
    exact ⟨e, by rw [hagree a (by simp)]; exact he, hp, hn,
      hrest.congr fun b hb => hagree b (by simp [hb])⟩

theorem Linked.isSome {h : Heap β} : ∀ {as : List Addr} {p : Option Addr},
    Linked prev next h p as → ∀ a ∈ as, (h a).isSome
  | [], _, _, a, ha => absurd ha (by simp)
  | b :: as, _, hl, a, ha => by
    obtain ⟨e, he, _, _, hrest⟩ := hl
    rcases List.mem_cons.mp ha with rfl | hm
    · simp [he]
    · exact hrest.isSome a hm

/-- Following `next` for as many steps as there are nodes recovers the addresses. -/
theorem Linked.walk_eq {h : Heap β} : ∀ {as : List Addr} {p : Option Addr},
    Linked prev next h p as → walk next h as.length as.head? = as
  | [], _, _ => rfl
  | a :: as, _, hl => by
    obtain ⟨e, he, _, hn, hrest⟩ := hl
    simp [walk, he, hn, hrest.walk_eq]

/-- Nothing comes after the last node, however far one looks. -/
theorem Linked.walk_eq_of_le {h : Heap β} : ∀ {as : List Addr} {p : Option Addr} {n : Nat},
    Linked prev next h p as → as.length ≤ n → walk next h n as.head? = as
  | [], _, n, _, _ => by cases n <;> rfl
  | a :: as, _, n, hl, hn => by
    obtain ⟨e, he, _, hnext, hrest⟩ := hl
    obtain ⟨m, rfl⟩ : ∃ m, n = m + 1 := ⟨n - 1, by rw [List.length_cons] at hn; omega⟩
    have hm : as.length ≤ m := Nat.le_of_succ_le_succ hn
    simp [walk, he, hnext, hrest.walk_eq_of_le hm]

/-- A node of the chain points at its two neighbours. -/
theorem Linked.neighbours {h : Heap β} {a : Addr} {r : List Addr} :
    ∀ {l : List Addr} {p : Option Addr}, Linked prev next h p (l ++ a :: r) →
      ∃ e, h a = some e ∧ prev e = l.getLast?.or p ∧ next e = r.head?
  | [], p, hl => by
    obtain ⟨e, he, hp, hn, -⟩ := hl
    exact ⟨e, he, by rw [hp, List.getLast?_nil, Option.none_or], hn⟩
  | b :: l, p, hl => by
    obtain ⟨-, -, -, -, hrest⟩ := hl
    obtain ⟨e, he, hp, hn⟩ := hrest.neighbours
    refine ⟨e, he, ?_, hn⟩
    rw [hp, List.getLast?_cons]
    cases l.getLast? <;> rfl

/-- The nodes that one gets to from `start` along `next`. -/
inductive Reachable (next : β → Option Addr) (h : Heap β) (start : Option Addr) : Addr → Prop
  | start {a : Addr} : start = some a → Reachable next h start a
  | next {a b : Addr} {e : β} : Reachable next h start a → h a = some e → next e = some b →
      Reachable next h start b

/-- The nodes that one gets to are those of the chain. -/
theorem Linked.reachable_iff {h : Heap β} {as : List Addr} {p : Option Addr}
    (hl : Linked prev next h p as) (a : Addr) : Reachable next h as.head? a ↔ a ∈ as := by
  constructor
  · intro hr
    induction hr with
    | start ha => exact List.mem_of_mem_head? ha
    | next _ he hb ih =>
      obtain ⟨l, r, rfl⟩ := List.append_of_mem ih
      obtain ⟨e, he', -, hnext⟩ := hl.neighbours
      rw [he'] at he
      cases he
      rw [hnext] at hb
      exact List.mem_append_right l (List.mem_cons_of_mem _ (List.mem_of_mem_head? hb))
  · intro ha
    obtain ⟨l, r, rfl⟩ := List.append_of_mem ha
    induction l using List.reverseRecOn generalizing a r with
    | nil => exact .start rfl
    | append_singleton l b ih =>
      rw [List.append_assoc, List.singleton_append] at hl ⊢
      obtain ⟨e, he, -, hnext⟩ := hl.neighbours
      exact .next (ih b (a :: r) hl (by simp)) he hnext

/-- Pointing forward and pointing back are the same thing inside a chain. -/
theorem Linked.next_iff_prev {h : Heap β} {as : List Addr} (hl : Linked prev next h none as)
    {a b : Addr} (ha : a ∈ as) (hb : b ∈ as) :
    (h a).bind next = some b ↔ (h b).bind prev = some a := by
  constructor
  · intro hnext
    obtain ⟨l, r, rfl⟩ := List.append_of_mem ha
    obtain ⟨e, he, -, hn⟩ := hl.neighbours
    rw [he, Option.bind_some, hn] at hnext
    obtain ⟨r', rfl⟩ := List.head?_eq_some_iff.mp hnext
    rw [← List.singleton_append, ← List.append_assoc] at hl
    obtain ⟨f, hf, hp, -⟩ := hl.neighbours
    simp [hf, hp]
  · intro hprev
    obtain ⟨l, r, rfl⟩ := List.append_of_mem hb
    obtain ⟨e, he, hp, -⟩ := hl.neighbours
    rw [he, Option.bind_some, hp, Option.or_none] at hprev
    obtain ⟨l', rfl⟩ := List.getLast?_eq_some_iff.mp hprev
    rw [List.append_assoc, List.singleton_append] at hl
    obtain ⟨f, hf, -, hn⟩ := hl.neighbours
    simp [hf, hn]

/-- A chain grows at its end: the last node is pointed at the new one, and back. -/
theorem Linked.snoc {h : Heap β} {l new : Addr} {el : β} (el' en : β) (hl : h l = some el)
    (hprev : prev el' = prev el) (hnext : next el' = some new)
    (hnp : prev en = some l) (hnn : next en = none) :
    ∀ {as : List Addr} {p : Option Addr}, Linked prev next h p (as ++ [l]) →
      l ∉ as → new ∉ as → new ≠ l →
      Linked prev next (Function.update (Function.update h l el') new en) p (as ++ [l, new])
  | [], p, hlk, _, _, hne => by
    obtain ⟨e, he, hp, _, _⟩ := hlk
    rw [hl] at he
    cases he
    exact ⟨el', by simp [hne.symm], hprev.trans hp, hnext, en, by simp, hnp, hnn, trivial⟩
  | a :: as, p, hlk, hlas, hnas, hne => by
    obtain ⟨e, he, hp, hn, hrest⟩ := hlk
    have hal : a ≠ l := fun h => hlas (by simp [h])
    have han : a ≠ new := fun h => hnas (by simp [h])
    refine ⟨e, by simp [hal, han, he], hp, ?_, hrest.snoc el' en hl hprev hnext hnp hnn
      (fun h => hlas (by simp [h])) (fun h => hnas (by simp [h])) hne⟩
    rw [hn]
    cases as <;> rfl

/-- A chain shrinks at its front: the second node stops pointing back. -/
theorem Linked.behead {h h' : Heap β} {p : Option Addr} {a b : Addr} {as : List Addr}
    {eb : β} (eb' : β) (hlk : Linked prev next h p (a :: b :: as)) (hb : h b = some eb)
    (hb' : h' b = some eb') (hprev : prev eb' = none) (hnext : next eb' = next eb)
    (hagree : ∀ c ∈ as, h' c = h c) : Linked prev next h' none (b :: as) := by
  obtain ⟨_, _, _, _, e, he, _, hn, hrest⟩ := hlk
  rw [hb] at he
  cases he
  exact ⟨eb', hb', hprev, hnext.trans hn, hrest.congr hagree⟩

end Chain

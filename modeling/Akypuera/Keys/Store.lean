import Akypuera.Keys.Counter
import Akypuera.Lib.Search

/-!
# The link-key store (`aky_keys.c`)

One hash table takes the text `type#src#dst` to the descriptor of a queue, and each queue
holds the keys that were generated for its triple and not handed out yet. Both operations go
through the table, the descriptor and the linked elements, and any of these could be a bad
pointer; `none` is a crash.

`Shape` is why there is none: every descriptor in the table stands for a chain of addresses,
**no address is in two chains**, and whatever `malloc` has not handed out yet is in none. The
two specifications (`Shape.put`, `Shape.get`) say what a call does to that family of chains,
and `queueAt` reads the texts off it.
-/

set_option autoImplicit false

namespace Akypuera
namespace Keys

open CText Chain Search

/-- `AKY_DEFAULT_STR_SIZE`. -/
def akyDefaultStrSize : Nat := 200

/-- The static data of `aky_keys.c`, with descriptors of either kind. `brk` is the address `malloc`
    answers with next. -/
structure StoreOf (δ : Type) where
  heap : Heap Elem
  brk : Addr
  hash : HTab Str δ
  counter : UInt64

/-- The store of the repository, its counts of type `int`. -/
abbrev IntStore : Type := StoreOf IntDesc

/-- The store with counts that never overflow. -/
abbrev Store : Type := StoreOf Desc

/-- What a call leaves for its caller: whether it answered with the buffer or with `NULL`,
    and the buffer. -/
structure Answer where
  nonNull : Bool
  key : Buf
  deriving DecidableEq

section
variable {δ : Type}

/-- `aky_key_init`, when `hcreate_r` gives a table for `size` entries. -/
def akyKeyInit (size : Option Nat) : StoreOf δ :=
  { heap := fun _ => none, brk := 0, hash := HTab.create size, counter := 0 }

/-- The text of a new key: `"%d_%d_%lld"`, the counter printed as a signed number. -/
def linkKey (src dst : Int32) (counter : UInt64) : Str :=
  fmtInt src.toInt ++ '_' :: (fmtInt dst.toInt ++ '_' :: fmtInt counter.toInt64.toInt)

/-- `new_element (src, dst, key, n)`: the element's address, and what `key` now holds. -/
def newElement (st : StoreOf δ) (src dst : Int32) (n : Nat) : StoreOf δ × Addr × Buf :=
  let key := snprintf (zeroed n) (linkKey src dst st.counter)
  let new : Elem := { data := cstr key, head := none, tail := none }
  ({ st with heap := Function.update st.heap st.brk (some new), brk := st.brk + 1,
             counter := st.counter + 1 }, st.brk, key)

/-- `free_element`. -/
def freeElement (h : Heap Elem) (elem : Addr) : Heap Elem := Function.update h elem none

/-- `aux`, the text a triple is filed under: `"%s#%d#%d"`. -/
def triple (type : Str) (src dst : Int32) : Str :=
  type ++ '#' :: (fmtInt src.toInt ++ '#' :: fmtInt dst.toInt)

/-- What of it the 200 bytes of `aux` hold. -/
def tableKey (type : Str) (src dst : Int32) : Str := fit akyDefaultStrSize (triple type src dst)

/-- The table a put works on: its entry is looked for, and made where there is none. -/
def findOrEnter [Descriptor δ] (st : StoreOf δ) (aux : Str) : Option (HTab Str δ) :=
  match st.hash.find aux with
  | some _ => some st.hash
  | none => st.hash.enter aux Descriptor.empty

/-- `aky_put_key (type, src, dst, key, n)`. -/
def akyPutKey [Descriptor δ] (st : StoreOf δ) (type : Str) (src dst : Int32) (n : Nat) :
    Option (StoreOf δ × Answer) :=
  let aux := tableKey type src dst
  match findOrEnter st aux with
  | none => some (st, { nonNull := false, key := zeroed n })
  | some hash => do
      let (st, new, key) := newElement { st with hash := hash } src dst n
      let desc ← hash.find aux
      let (heap, desc) ← Descriptor.enqueue st.heap desc new
      return ({ st with heap := heap, hash := hash.set aux desc },
        { nonNull := true, key := key })

/-- `aky_get_key (type, src, dst, key, n)`. -/
def akyGetKey [Descriptor δ] (st : StoreOf δ) (type : Str) (src dst : Int32) (n : Nat) :
    Option (StoreOf δ × Answer) :=
  let aux := tableKey type src dst
  match st.hash.find aux with
  | none => some (st, { nonNull := false, key := zeroed n })
  | some desc => do
      let (heap, desc, elem) ← Descriptor.dequeue st.heap desc
      let st := { st with heap := heap, hash := st.hash.set aux desc }
      match elem with
      | none => return (st, { nonNull := false, key := zeroed n })
      | some elem => do
          let e ← st.heap elem
          return ({ st with heap := freeElement st.heap elem },
            { nonNull := true, key := snprintf (zeroed n) e.data })

/-- The keys waiting under a table key, oldest first. -/
def queueAt [Descriptor δ] (st : StoreOf δ) (k : Str) : List Str :=
  match st.hash.find k with
  | none => []
  | some d => (walk Elem.tail st.heap (Descriptor.count d) (Descriptor.first d)).filterMap
      (text st.heap)

end

/-! ## Keys and table keys as texts -/

theorem length_fmtInt32 (i : Int32) : (fmtInt i.toInt).length ≤ 11 := by
  have hlt := i.toInt_lt
  have hle := i.le_toInt
  exact length_fmtInt_le (by decide) (by omega)

theorem length_fmtInt64 (i : Int64) : (fmtInt i.toInt).length ≤ 20 := by
  have hlt := i.toInt_lt
  have hle := i.le_toInt
  exact length_fmtInt_le (by decide) (by omega)

/-- **A number printed behind a fixed text is read off it**, where the text is short. -/
theorem fit_fmtInt32_inj {p : Str} (hp : p.length ≤ 188) {n n' : UInt32}
    (h : fit akyDefaultStrSize (p ++ fmtInt n.toInt32.toInt) =
      fit akyDefaultStrSize (p ++ fmtInt n'.toInt32.toInt)) : n = n' := by
  have hshort : ∀ m : UInt32, (p ++ fmtInt m.toInt32.toInt).length < akyDefaultStrSize := by
    intro m
    have hlen := length_fmtInt32 m.toInt32
    rw [List.length_append, akyDefaultStrSize]
    omega
  rw [fit_of_length_lt (hshort n), fit_of_length_lt (hshort n')] at h
  exact toInt32_inj (Int32.toInt_inj.mp (fmtInt_inj (List.append_cancel_left h)))

theorem length_linkKey (src dst : Int32) (counter : UInt64) :
    (linkKey src dst counter).length ≤ 44 := by
  have h₁ := length_fmtInt32 src
  have h₂ := length_fmtInt32 dst
  have h₃ := length_fmtInt64 counter.toInt64
  simp only [linkKey, List.length_append, List.length_cons]
  omega

theorem nul_not_mem_linkKey (src dst : Int32) (counter : UInt64) :
    nul ∉ linkKey src dst counter := by
  have hint : ∀ i : Int, nul ∉ fmtInt i := fun i => not_mem_fmtInt (by decide) (by decide)
  have hsep : nul ≠ '_' := by decide
  simp [linkKey, hint, hsep]

theorem toInt_toInt64_inj {c c' : UInt64} (h : c.toInt64.toInt = c'.toInt64.toInt) : c = c' := by
  have hi : c.toInt64 = c'.toInt64 := Int64.toInt_inj.mp h
  rw [← UInt64.toUInt64_toInt64 c, ← UInt64.toUInt64_toInt64 c', hi]

/-- **A key determines everything printed into it.** -/
theorem linkKey_inj {s d s' d' : Int32} {c c' : UInt64} (h : linkKey s d c = linkKey s' d' c') :
    s = s' ∧ d = d' ∧ c = c' := by
  have hsep : ∀ i : Int, '_' ∉ fmtInt i := fun i => not_mem_fmtInt (by decide) (by decide)
  have hcut : (fmtInt s.toInt ++ '_' :: fmtInt d.toInt) ++ '_' :: fmtInt c.toInt64.toInt =
      (fmtInt s'.toInt ++ '_' :: fmtInt d'.toInt) ++ '_' :: fmtInt c'.toInt64.toInt := by
    simpa [linkKey] using h
  obtain ⟨hpair, hcounter⟩ := append_sep_inj (hsep _) (hsep _) hcut
  obtain ⟨hs, hd⟩ := append_sep_inj (hsep _) (hsep _) hpair
  exact ⟨Int32.toInt_inj.mp (fmtInt_inj hs), Int32.toInt_inj.mp (fmtInt_inj hd),
    toInt_toInt64_inj (fmtInt_inj hcounter)⟩

/-- **The table key determines the triple**, even when the type contains a `#`. -/
theorem triple_inj {t t' : Str} {s s' d d' : Int32} (h : triple t s d = triple t' s' d') :
    t = t' ∧ s = s' ∧ d = d' := by
  have hsep : ∀ i : Int, '#' ∉ fmtInt i := fun i => not_mem_fmtInt (by decide) (by decide)
  have hcut : (t ++ '#' :: fmtInt s.toInt) ++ '#' :: fmtInt d.toInt =
      (t' ++ '#' :: fmtInt s'.toInt) ++ '#' :: fmtInt d'.toInt := by
    simpa [triple] using h
  obtain ⟨hpair, hd⟩ := append_sep_inj (hsep _) (hsep _) hcut
  obtain ⟨ht, hs⟩ := append_sep_inj (hsep _) (hsep _) hpair
  exact ⟨ht, Int32.toInt_inj.mp (fmtInt_inj hs), Int32.toInt_inj.mp (fmtInt_inj hd)⟩

/-- The triple fits the buffer it is printed into. -/
def Fits (type : Str) (src dst : Int32) : Prop :=
  (triple type src dst).length < akyDefaultStrSize

instance (type : Str) (src dst : Int32) : Decidable (Fits type src dst) :=
  inferInstanceAs (Decidable (_ < _))

theorem tableKey_inj {t t' : Str} {s s' d d' : Int32} (hf : Fits t s d) (hf' : Fits t' s' d')
    (h : tableKey t s d = tableKey t' s' d') : t = t' ∧ s = s' ∧ d = d' := by
  rw [tableKey, tableKey, fit_of_length_lt hf, fit_of_length_lt hf'] at h
  exact triple_inj h

/-- Short type strings fit whatever the ranks are. -/
theorem fits_of_length_le {t : Str} (ht : t.length ≤ 175) (s d : Int32) : Fits t s d := by
  have h₁ := length_fmtInt32 s
  have h₂ := length_fmtInt32 d
  simp only [Fits, triple, akyDefaultStrSize, List.length_append, List.length_cons]
  omega

/-- A text that a 200 byte buffer holds whole. -/
def Whole (s : Str) : Prop := s.length < akyDefaultStrSize ∧ nul ∉ s

theorem whole_linkKey (src dst : Int32) (counter : UInt64) : Whole (linkKey src dst counter) :=
  ⟨Nat.lt_of_le_of_lt (length_linkKey src dst counter) (by decide),
    nul_not_mem_linkKey src dst counter⟩

/-- Such a text survives being printed into a buffer and read back. -/
theorem Whole.cstr_snprintf {s : Str} (h : Whole s) :
    cstr (snprintf (zeroed akyDefaultStrSize) s) = s := by
  have hbuf : (zeroed akyDefaultStrSize).length = akyDefaultStrSize := length_zeroed _
  have hpos : 0 < (zeroed akyDefaultStrSize).length := by rw [hbuf]; decide
  rw [CText.cstr_snprintf hpos h.2, hbuf, fit_of_length_lt h.1]

/-- A key reads back whole. -/
theorem cstr_linkKey (src dst : Int32) (counter : UInt64) :
    cstr (snprintf (zeroed akyDefaultStrSize) (linkKey src dst counter)) =
      linkKey src dst counter := (whole_linkKey src dst counter).cstr_snprintf

/-! ## The shape of a store -/

/-- The chains behind the descriptors of a store. -/
structure Shape (st : Store) (c : Str → List Addr) : Prop where
  absent : ∀ k, st.hash.find k = none → c k = []
  present : ∀ k d, st.hash.find k = some d → DescOk st.heap d (c k)
  apart : ∀ k k' a, a ∈ c k → a ∈ c k' → k = k'
  below : ∀ k, ∀ a ∈ c k, a < st.brk

/-- `hsearch_r` finds the key or has room for it. -/
def room (st : Store) (k : Str) : Bool := (st.hash.find k).isSome || !st.hash.full

theorem Shape.init (size : Option Nat) : Shape (akyKeyInit size) fun _ => [] where
  absent _ _ := rfl
  present _ _ h := absurd h (by simp [akyKeyInit])
  apart _ _ _ h := absurd h (by simp)
  below _ _ h := absurd h (by simp)

theorem queueAt_init (size : Option Nat) (k : Str) : queueAt (akyKeyInit size : Store) k = [] := by
  simp [queueAt, akyKeyInit]

theorem Shape.queueAt_eq {st : Store} {c : Str → List Addr} (h : Shape st c) (k : Str) :
    queueAt st k = (c k).filterMap (text st.heap) := by
  unfold queueAt
  cases hk : st.hash.find k with
  | none => simp [h.absent k hk]
  | some d =>
    have hd := h.present k d hk
    simp only [count_desc, first_desc, hd.n, hd.first, hd.linked.walk_eq]

/-- As many keys wait as the chain has elements. -/
theorem Shape.length_queueAt {st : Store} {c : Str → List Addr} (h : Shape st c) {k : Str} {d : Desc}
    (hk : st.hash.find k = some d) : (queueAt st k).length = d.n := by
  have hd := h.present k d hk
  rw [h.queueAt_eq, hd.length_texts, hd.n]

/-- The descriptor is in the table a put works on, and nothing else has changed. -/
theorem Shape.entered {st : Store} {c : Str → List Addr} (h : Shape st c) {k : Str}
    (hroom : room st k = true) :
    ∃ hash d, findOrEnter st k = some hash ∧ hash.find k = some d ∧ DescOk st.heap d (c k) ∧
      (∀ k', k' ≠ k → hash.find k' = st.hash.find k') ∧ hash.size = st.hash.size := by
  unfold findOrEnter
  cases hk : st.hash.find k with
  | some d => exact ⟨st.hash, d, rfl, hk, h.present k d hk, fun _ _ => rfl, rfl⟩
  | none =>
    have hfull : st.hash.full = false := by simpa [room, hk] using hroom
    obtain ⟨hash, henter, hsize, hfind, hother⟩ := HTab.enter_of_room Desc.empty hk hfull
    exact ⟨hash, Desc.empty, henter, hfind, by rw [h.absent k hk]; exact DescOk.empty _,
      hother, hsize⟩

/-- Rebuilding one queue: a call that leaves the other entries of the table and the nodes of
    the other chains alone, and whose new chain is made of nodes of the old one and fresh
    nodes, keeps the shape. -/
theorem Shape.rebuild {st st' : Store} {c : Str → List Addr} (h : Shape st c) {k : Str}
    {d : Desc} {as : List Addr} (hfind : st'.hash.find k = some d)
    (hother : ∀ k', k' ≠ k → st'.hash.find k' = st.hash.find k')
    (hdesc : DescOk st'.heap d as) (hbrk : st.brk ≤ st'.brk)
    (hmem : ∀ a ∈ as, a ∈ c k ∨ (st.brk ≤ a ∧ a < st'.brk))
    (hframe : ∀ k', k' ≠ k → ∀ a ∈ c k', st'.heap a = st.heap a) :
    Shape st' (Function.update c k as) := by
  have hapart : ∀ k', k' ≠ k → ∀ a ∈ as, a ∉ c k' := by
    intro k' hne a ha ha'
    rcases hmem a ha with hold | ⟨hfresh, _⟩
    · exact hne (h.apart k' k a ha' hold)
    · exact absurd (h.below k' a ha') (Nat.not_lt.mpr hfresh)
  refine ⟨?_, ?_, ?_, ?_⟩
  · intro k' hk'
    by_cases hne : k' = k
    · rw [hne, hfind] at hk'
      exact absurd hk' (by simp)
    · rw [hother k' hne] at hk'
      rw [Function.update_of_ne hne, h.absent k' hk']
  · intro k' e hk'
    by_cases hne : k' = k
    · subst hne
      rw [hfind] at hk'
      cases hk'
      rwa [Function.update_self]
    · rw [hother k' hne] at hk'
      rw [Function.update_of_ne hne]
      exact (h.present k' e hk').congr (hframe k' hne)
  · intro k₁ k₂ a h₁ h₂
    by_cases hk₁ : k₁ = k <;> by_cases hk₂ : k₂ = k
    · rw [hk₁, hk₂]
    · rw [hk₁, Function.update_self] at h₁
      rw [Function.update_of_ne hk₂] at h₂
      exact absurd h₂ (hapart k₂ hk₂ a h₁)
    · rw [hk₂, Function.update_self] at h₂
      rw [Function.update_of_ne hk₁] at h₁
      exact absurd h₁ (hapart k₁ hk₁ a h₂)
    · rw [Function.update_of_ne hk₁] at h₁
      rw [Function.update_of_ne hk₂] at h₂
      exact h.apart k₁ k₂ a h₁ h₂
  · intro k' a ha
    by_cases hne : k' = k
    · rw [hne, Function.update_self] at ha
      rcases hmem a ha with hold | ⟨_, hlt⟩
      · exact Nat.lt_of_lt_of_le (h.below k a hold) hbrk
      · exact hlt
    · rw [Function.update_of_ne hne] at ha
      exact Nat.lt_of_lt_of_le (h.below k' a ha) hbrk

/-- What such a call does to the queues. -/
theorem Shape.queueAt_rebuild {st st' : Store} {c : Str → List Addr} (h : Shape st c) {k : Str}
    {as : List Addr} (h' : Shape st' (Function.update c k as))
    (hframe : ∀ k', k' ≠ k → ∀ a ∈ c k', st'.heap a = st.heap a) :
    queueAt st' = Function.update (queueAt st) k (as.filterMap (text st'.heap)) := by
  funext k'
  rw [h'.queueAt_eq]
  by_cases hne : k' = k
  · rw [hne, Function.update_self, Function.update_self]
  · rw [Function.update_of_ne hne, Function.update_of_ne hne, h.queueAt_eq]
    exact List.filterMap_congr fun a ha => by simp only [text, hframe k' hne a ha]

/-- **Putting** appends the new key to its triple's queue. -/
theorem Shape.put {st : Store} {c : Str → List Addr} (h : Shape st c) (type : Str)
    (src dst : Int32) (n : Nat) (hroom : room st (tableKey type src dst) = true) :
    let k := tableKey type src dst
    let key := snprintf (zeroed n) (linkKey src dst st.counter)
    ∃ st', akyPutKey st type src dst n = some (st', { nonNull := true, key := key }) ∧
      (∃ c', Shape st' c') ∧ st'.counter = st.counter + 1 ∧ st'.hash.size = st.hash.size ∧
      queueAt st' = Function.update (queueAt st) k (queueAt st k ++ [cstr key]) := by
  intro k key
  obtain ⟨hash, d, hent, hfind, hdesc, hother, hsize⟩ := h.entered hroom
  set new : Elem := { data := cstr key, head := none, tail := none } with hnew
  set heap₁ := Function.update st.heap st.brk (some new) with hheap₁
  have hne_brk : ∀ k', ∀ a ∈ c k', a ≠ st.brk := fun k' a ha => Nat.ne_of_lt (h.below k' a ha)
  have hsame : ∀ k', ∀ a ∈ c k', heap₁ a = st.heap a := fun k' a ha => by
    simp [hheap₁, hne_brk k' a ha]
  have halloc : heap₁ st.brk = some new := by simp [hheap₁]
  obtain ⟨heap₂, d', henq, hdesc', hframe, htext⟩ :=
    enqueue_spec (hdesc.congr (hsame k)) halloc (fun hm => hne_brk k _ hm rfl)
  set st' : Store := { st with heap := heap₂, brk := st.brk + 1, hash := hash.set k d',
                               counter := st.counter + 1 } with hst'
  have hothers : ∀ k', k' ≠ k → ∀ a ∈ c k', st'.heap a = st.heap a := by
    intro k' hne a ha
    have hout : a ∉ c k ++ [st.brk] := by
      intro hm
      rcases List.mem_append.mp hm with hm | hm
      · exact hne (h.apart k' k a ha hm)
      · exact hne_brk k' a ha (List.mem_singleton.mp hm)
    exact (hframe a hout).trans (hsame k' a ha)
  have hshape : Shape st' (Function.update c k (c k ++ [st.brk])) := by
    refine h.rebuild (HTab.find_set_self ..) ?_ hdesc' (Nat.le_succ _) ?_ hothers
    · intro k' hne
      rw [hst', HTab.find_set_ne _ _ hne, hother k' hne]
    · intro a ha
      rcases List.mem_append.mp ha with ha | ha
      · exact Or.inl ha
      · rw [List.mem_singleton.mp ha]
        exact Or.inr ⟨Nat.le_refl _, Nat.lt_succ_self _⟩
  refine ⟨st', ?_, ⟨_, hshape⟩, rfl, hsize, ?_⟩
  · have hcall : akyPutKey st type src dst n = (enqueue heap₁ d st.brk).bind fun r =>
        some ({ st with heap := r.1, brk := st.brk + 1, hash := hash.set k r.2,
                        counter := st.counter + 1 }, { nonNull := true, key := key }) := by
      unfold akyPutKey newElement
      simp only [enqueue_desc, hent, hfind]
      rfl
    rw [hcall, henq]
    rfl
  · have hold : ∀ a ∈ c k, text heap₂ a = text st.heap a := fun a ha => by
      rw [htext]
      simp only [text, hsame k a ha]
    have hlast : text heap₂ st.brk = some (cstr key) := by
      rw [htext]
      simp only [text, halloc, hnew, Option.map_some]
    rw [h.queueAt_rebuild hshape hothers, h.queueAt_eq k, List.filterMap_append]
    show Function.update (queueAt st) k
      ((c k).filterMap (text heap₂) ++ [st.brk].filterMap (text heap₂)) = _
    rw [List.filterMap_congr hold]
    simp [hlast]

/-- **A full table** turns a put of a new triple into nothing. -/
theorem put_of_full {st : Store} (type : Str) (src dst : Int32) (n : Nat)
    (hroom : room st (tableKey type src dst) = false) :
    akyPutKey st type src dst n = some (st, { nonNull := false, key := zeroed n }) := by
  have hnone : st.hash.find (tableKey type src dst) = none := by
    cases hk : st.hash.find (tableKey type src dst) with
    | none => rfl
    | some d => simp [room, hk] at hroom
  have hfull : st.hash.full = true := by simpa [room, hnone] using hroom
  simp only [akyPutKey, findOrEnter]
  rw [hnone]
  simp only [empty_desc, HTab.enter_of_find_none Desc.empty hnone, hfull]
  rfl

/-- **Getting** takes the oldest key of the triple's queue, or leaves all queues alone. -/
theorem Shape.get {st : Store} {c : Str → List Addr} (h : Shape st c) (type : Str)
    (src dst : Int32) (n : Nat) :
    let k := tableKey type src dst
    ∃ st' ans, akyGetKey st type src dst n = some (st', ans) ∧
      (∃ c', Shape st' c') ∧ st'.counter = st.counter ∧ st'.hash.size = st.hash.size ∧
      queueAt st' = Function.update (queueAt st) k (queueAt st k).tail ∧
      ans = match (queueAt st k).head? with
        | none => { nonNull := false, key := zeroed n }
        | some s => { nonNull := true, key := snprintf (zeroed n) s } := by
  intro k
  cases hk : st.hash.find k with
  | none =>
    have hq : queueAt st k = [] := by rw [h.queueAt_eq, h.absent k hk]; rfl
    refine ⟨st, { nonNull := false, key := zeroed n }, ?_, ⟨c, h⟩, rfl, rfl, ?_, ?_⟩
    · simp only [akyGetKey]
      rw [show tableKey type src dst = k from rfl, hk]
    · rw [hq, List.tail_nil, ← hq, Function.update_eq_self]
    · rw [hq]; rfl
  | some d =>
    have hd := h.present k d hk
    cases hc : c k with
    | nil =>
      rw [hc] at hd
      have hq : queueAt st k = [] := by rw [h.queueAt_eq, hc]; rfl
      set st' : Store := { st with hash := st.hash.set k d } with hst'
      have hfind : ∀ k', st'.hash.find k' = st.hash.find k' := by
        intro k'
        by_cases hne : k' = k
        · subst hne; simp [hst', hk]
        · exact HTab.find_set_ne _ _ hne
      refine ⟨st', { nonNull := false, key := zeroed n }, ?_, ⟨c, ?_⟩, rfl, rfl, ?_, ?_⟩
      · simp only [akyGetKey]
        rw [show tableKey type src dst = k from rfl, hk]
        simp [dequeue_nil hd, hst']
      · exact ⟨fun k' hk' => h.absent k' (by rw [← hfind k']; exact hk'),
          fun k' e hk' => h.present k' e (by rw [← hfind k']; exact hk'), h.apart, h.below⟩
      · rw [hq, List.tail_nil, ← hq, Function.update_eq_self]
        funext k'
        simp only [queueAt, hfind k']
        rfl
      · rw [hq]; rfl
    | cons a as =>
      rw [hc] at hd
      obtain ⟨e, he⟩ := Option.isSome_iff_exists.mp (hd.linked.isSome a (by simp))
      obtain ⟨heap₂, d', hdeq, hdesc', hframe, htext⟩ := dequeue_cons hd
      have hnd := List.nodup_cons.mp hd.nodup
      have htext_a : text heap₂ a = some e.data := by rw [htext]; simp [text, he]
      obtain ⟨e₂, he₂, hdata⟩ := Option.map_eq_some_iff.mp htext_a
      set st' : Store :=
        { st with heap := freeElement heap₂ a, hash := st.hash.set k d' } with hst'
      have hkept : ∀ b, b ≠ a → st'.heap b = heap₂ b := fun b hb => by
        simp [hst', freeElement, hb]
      have hothers : ∀ k', k' ≠ k → ∀ b ∈ c k', st'.heap b = st.heap b := by
        intro k' hne b hb
        have hout : b ∉ a :: as := fun hm => hne (h.apart k' k b hb (by rw [hc]; exact hm))
        rw [hkept b fun hba => hout (by simp [hba]), hframe b hout]
      have hrest : ∀ b ∈ as, st'.heap b = heap₂ b := fun b hb =>
        hkept b fun hba => hnd.1 (hba ▸ hb)
      have hshape : Shape st' (Function.update c k as) := by
        refine h.rebuild (HTab.find_set_self ..) (fun k' hne => HTab.find_set_ne _ _ hne)
          (hdesc'.congr hrest) (Nat.le_refl _) ?_ hothers
        intro b hb
        exact Or.inl (by rw [hc]; exact List.mem_cons_of_mem _ hb)
      have hq : queueAt st k = e.data :: as.filterMap (text st.heap) := by
        rw [h.queueAt_eq, hc]
        simp [text, he]
      refine ⟨st', { nonNull := true, key := snprintf (zeroed n) e.data }, ?_, ⟨_, hshape⟩,
        rfl, rfl, ?_, ?_⟩
      · simp only [akyGetKey]
        rw [show tableKey type src dst = k from rfl, hk]
        simp [hdeq, he₂, hdata, hst']
      · have hread : ∀ b ∈ as, text st'.heap b = text st.heap b := fun b hb => by
          rw [← htext]
          simp only [text, hrest b hb]
        rw [h.queueAt_rebuild hshape hothers, hq, List.tail_cons, List.filterMap_congr hread]
      · rw [hq]; rfl

end Keys
end Akypuera

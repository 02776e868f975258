import Akypuera.Keys.Counter
import Akypuera.Lib.Fifo

/-!
# The links of a queue over whole runs

Any calls of `enqueue` and `dequeue` on one descriptor, from an empty one on. The descriptor and the
heap stand for a FIFO queue of addresses at every moment (`Represents`): what one reads from `first`
along `tail` is that queue, `head` is the way back, and `n`, `first` and `last` say how long it is
and where it ends. A caller gives `enqueue` an element that is not in the queue (`Fresh`), whatever
its two pointers hold. **What a run needs besides is that an `int` counts its elements**: there are
never `2 ^ 31` of them (`links_kept_iff`).
-/

set_option autoImplicit false

namespace Akypuera
namespace Keys

open CText Chain Fifo

/-- A call on the descriptor. The element of an `enqueue` is filled in before. -/
inductive QueueOp where
  | enqueue (new : Addr) (e : Elem)
  | dequeue

/-- The call on a heap, and what the log says of it. -/
def QueueOp.call (h : Heap Elem) (desc : IntDesc) :
    QueueOp → Option (Heap Elem × IntDesc × Entry Unit Addr)
  | .enqueue new e => do
      let (h, desc) ← desc.enqueue (Function.update h new (some e)) new
      return (h, desc, .push () new)
  | .dequeue => do
      let (h, desc, ret) ← desc.dequeue h
      return (h, desc, .pop () ret)

/-- Calls, one after the other. -/
def QueueOp.run (h : Heap Elem) (desc : IntDesc) :
    List QueueOp → Option (Heap Elem × IntDesc × List (Entry Unit Addr))
  | [] => some (h, desc, [])
  | op :: ops => do
      let (h, desc, entry) ← op.call h desc
      let (h, desc, log) ← QueueOp.run h desc ops
      return (h, desc, entry :: log)

/-- No element is put in a queue that has it. -/
def Fresh : List Addr → List QueueOp → Prop
  | _, [] => True
  | as, .enqueue new _ :: ops => new ∉ as ∧ Fresh (as ++ [new]) ops
  | as, .dequeue :: ops => Fresh as.tail ops

/-- How many elements there are after some calls, where there were `k`. -/
def held (k : Nat) : List QueueOp → Nat
  | [] => k
  | .enqueue _ _ :: ops => held (k + 1) ops
  | .dequeue :: ops => held (k - 1) ops

/-- What the two pointers of an element hold. -/
def headOf (h : Heap Elem) (a : Addr) : Option Addr := (h a).bind Elem.head

def tailOf (h : Heap Elem) (a : Addr) : Option Addr := (h a).bind Elem.tail

/-- The elements that one gets to from `first` through `tail`. -/
def ReachableFrom (h : Heap Elem) (desc : IntDesc) : Set Addr :=
  { a | Reachable Elem.tail h desc.first a }

/-- A descriptor and a heap stand for the queue `as`, oldest first. -/
structure Represents (h : Heap Elem) (desc : IntDesc) (as : List Addr) : Prop where
  /-- The chain read from `first` is the queue, however far one reads. -/
  chain : ∀ k : Nat, desc.n.toInt ≤ k → walk Elem.tail h k desc.first = as
  nodup : as.Nodup
  reachable : ∀ a, a ∈ ReachableFrom h desc ↔ a ∈ as
  n : desc.n.toInt = (ReachableFrom h desc).ncard
  isNull : desc.n = 0 → desc.first = none ∧ desc.last = none
  ends : desc.n ≠ 0 → ∃ first last, desc.first = some first ∧ as.head? = some first ∧
    desc.last = some last ∧ as.getLast? = some last
  headFirst : ∀ a ∈ as, headOf h a = none ↔ desc.first = some a
  tailLast : ∀ a ∈ as, tailOf h a = none ↔ desc.last = some a
  inverse : ∀ a ∈ as, ∀ b ∈ as, tailOf h a = some b ↔ headOf h b = some a

/-- After some calls on an empty descriptor: none of them failed, the answers are the queue's, the
    descriptor and the heap represent what is in it, and what was taken out is not reached any
    more. -/
def Kept (h : Heap Elem) (ops : List QueueOp) : Prop :=
  ∃ h' desc log, QueueOp.run h IntDesc.empty ops = some (h', desc, log) ∧
    Serves Queues.empty log ∧ Represents h' desc (drain Queues.empty log ()) ∧
    ∀ l a l', log = l ++ .pop () (some a) :: l' → .push () a ∉ l' → a ∉ ReachableFrom h' desc

/-- The invariant of the two functions, with the `int`. -/
structure IntDescOk (h : Heap Elem) (desc : IntDesc) (as : List Addr) : Prop where
  n : desc.n.toInt = as.length
  first : desc.first = as.head?
  last : desc.last = as.getLast?
  linked : LinkedElems h none as
  nodup : as.Nodup

variable {h : Heap Elem} {desc : IntDesc} {as : List Addr}

theorem IntDescOk.empty (h : Heap Elem) : IntDescOk h IntDesc.empty [] :=
  ⟨rfl, rfl, rfl, trivial, List.nodup_nil⟩

theorem intDescOk_iff : IntDescOk h desc as ↔ ∃ d, Counts desc d ∧ DescOk h d as := by
  constructor
  · intro hd
    exact ⟨{ first := desc.first, last := desc.last, n := as.length }, ⟨rfl, rfl, hd.n⟩,
      ⟨rfl, hd.first, hd.last, hd.linked, hd.nodup⟩⟩
  · rintro ⟨d, hc, hd⟩
    exact ⟨by rw [hc.n, hd.n], hc.first.trans hd.first, hc.last.trans hd.last, hd.linked, hd.nodup⟩

theorem IntDescOk.n_eq_zero_iff (hd : IntDescOk h desc as) : desc.n = 0 ↔ as = [] := by
  rw [← Int32.toInt_inj, hd.n, ← List.length_eq_zero_iff]
  exact Int.natCast_eq_zero

theorem IntDescOk.reachable (hd : IntDescOk h desc as) (a : Addr) :
    a ∈ ReachableFrom h desc ↔ a ∈ as := by
  rw [ReachableFrom, Set.mem_ofPred_eq, hd.first]
  exact hd.linked.reachable_iff a

theorem IntDescOk.headFirst (hd : IntDescOk h desc as) {a : Addr} (ha : a ∈ as) :
    headOf h a = none ↔ desc.first = some a := by
  obtain ⟨l, r, rfl⟩ := List.append_of_mem ha
  obtain ⟨e, he, hp, -⟩ := hd.linked.neighbours
  rw [headOf, he, Option.bind_some, hp, Option.or_none, hd.first]
  cases l with
  | nil => simp
  | cons b l =>
    have hne : b ≠ a := by
      intro hba
      exact (List.nodup_cons.mp hd.nodup).1 (by simp [hba])
    simp [hne]

theorem IntDescOk.tailLast (hd : IntDescOk h desc as) {a : Addr} (ha : a ∈ as) :
    tailOf h a = none ↔ desc.last = some a := by
  obtain ⟨l, r, rfl⟩ := List.append_of_mem ha
  obtain ⟨e, he, -, hn⟩ := hd.linked.neighbours
  rw [tailOf, he, Option.bind_some, hn, hd.last]
  rcases List.eq_nil_or_concat r with rfl | ⟨r, b, rfl⟩
  · simp
  · have hne : b ≠ a := by
      intro hba
      have hnd := (List.nodup_append.mp hd.nodup).2.1
      exact (List.nodup_cons.mp hnd).1 (by simp [hba])
    rw [List.concat_eq_append, ← List.cons_append, ← List.append_assoc, List.getLast?_concat]
    simp [hne]

/-- A set that is known by a list. -/
theorem ncard_of_mem_iff {s : Set Addr} (hs : ∀ a, a ∈ s ↔ a ∈ as) (hnd : as.Nodup) :
    s.ncard = as.length := by
  have hset : s = ↑as.toFinset := by
    ext a
    rw [hs, List.coe_toFinset, Set.mem_ofPred_eq]
  rw [hset, Set.ncard_coe_finset, List.toFinset_card_of_nodup hnd]

/-- The invariant says all of it. -/
theorem IntDescOk.represents (hd : IntDescOk h desc as) : Represents h desc as where
  chain k hk := by
    rw [hd.first]
    exact hd.linked.walk_eq_of_le (Int.ofNat_le.mp (hd.n ▸ hk))
  nodup := hd.nodup
  reachable := hd.reachable
  n := by rw [ncard_of_mem_iff hd.reachable hd.nodup, hd.n]
  isNull hn := by
    rw [hd.first, hd.last, hd.n_eq_zero_iff.mp hn]
    exact ⟨rfl, rfl⟩
  ends hn := by
    have has : as ≠ [] := fun hnil => hn (hd.n_eq_zero_iff.mpr hnil)
    exact ⟨as.head has, as.getLast has, by rw [hd.first, List.head?_eq_some_head has],
      List.head?_eq_some_head has, by rw [hd.last, List.getLast?_eq_some_getLast has],
      List.getLast?_eq_some_getLast has⟩
  headFirst _ ha := hd.headFirst ha
  tailLast _ ha := hd.tailLast ha
  inverse _ ha _ hb := hd.linked.next_iff_prev ha hb

/-! ## One call -/

/-- One queue, as the library has it. -/
def single (as : List Addr) : Queues Unit Addr := fun _ => as

theorem apply_push (as : List Addr) (new : Addr) :
    (Entry.push () new).apply (single as) = single (as ++ [new]) := by
  funext k
  simp [Entry.apply, single]

theorem apply_pop (as : List Addr) (ret : Option Addr) :
    (Entry.pop () ret).apply (single as) = single as.tail := by
  funext k
  simp [Entry.apply, single]

theorem held_cons (k : Nat) (op : QueueOp) (ops : List QueueOp) :
    held k (op :: ops) = held (held k [op]) ops := by
  cases op with
  | enqueue new e => rfl
  | dequeue => rfl

theorem IntDescOk.enqueue {new : Addr} {e : Elem} (hd : IntDescOk h desc as) (hnew : h new = some e)
    (hfresh : new ∉ as) (hroom : as.length + 1 < 2 ^ 31) :
    ∃ h' desc', desc.enqueue h new = some (h', desc') ∧ IntDescOk h' desc' (as ++ [new]) := by
  obtain ⟨d, hc, hd⟩ := intDescOk_iff.mp hd
  obtain ⟨h', d', hcall, hd', -, -⟩ := enqueue_spec hd hnew hfresh
  obtain ⟨desc', hcall', hc'⟩ := IntDesc.enqueue_counts hc (by rwa [hd.n]) hcall
  exact ⟨h', desc', hcall', intDescOk_iff.mpr ⟨d', hc', hd'⟩⟩

theorem IntDescOk.dequeue (hd : IntDescOk h desc as) :
    ∃ h' desc', desc.dequeue h = some (h', desc', as.head?) ∧ IntDescOk h' desc' as.tail := by
  obtain ⟨d, hc, hd⟩ := intDescOk_iff.mp hd
  have hspec : ∃ h' d', Keys.dequeue h d = some (h', d', as.head?) ∧ DescOk h' d' as.tail := by
    cases as with
    | nil => exact ⟨h, d, dequeue_nil hd, hd⟩
    | cons a as =>
      obtain ⟨h', d', hcall, hd', -, -⟩ := dequeue_cons hd
      exact ⟨h', d', hcall, hd'⟩
  obtain ⟨h', d', hcall, hd'⟩ := hspec
  obtain ⟨desc', hcall', hc'⟩ := IntDesc.dequeue_counts hc hcall
  exact ⟨h', desc', hcall', intDescOk_iff.mpr ⟨d', hc', hd'⟩⟩

/-- A call of a fresh run goes through if there is room, answers as a queue does and keeps the
    invariant. -/
theorem QueueOp.call_spec {op : QueueOp} {ops : List QueueOp} (hd : IntDescOk h desc as)
    (hfresh : Fresh as (op :: ops)) (hroom : held as.length [op] < 2 ^ 31) :
    ∃ h' desc' entry as', op.call h desc = some (h', desc', entry) ∧ entry.Ok (single as) ∧
      entry.apply (single as) = single as' ∧ IntDescOk h' desc' as' ∧ Fresh as' ops ∧
      as'.length = held as.length [op] := by
  cases op with
  | enqueue new e =>
    obtain ⟨hnew, hrest⟩ := hfresh
    -- filling the element in is a write outside the queue
    have hfilled : IntDescOk (Function.update h new (some e)) desc as := by
      have hagree : ∀ a ∈ as, Function.update h new (some e) a = h a := by
        intro a ha
        have hne : a ≠ new := fun heq => hnew (by rwa [← heq])
        exact Function.update_of_ne hne _ _
      exact { hd with linked := hd.linked.congr hagree }
    obtain ⟨h', desc', hcall, hd'⟩ :=
      hfilled.enqueue (Function.update_self new (some e) h) hnew hroom
    refine ⟨h', desc', .push () new, as ++ [new], ?_, trivial, apply_push as new, hd', hrest, ?_⟩
    · simp [QueueOp.call, hcall]
    · exact List.length_append
  | dequeue =>
    obtain ⟨h', desc', hcall, hd'⟩ := hd.dequeue
    refine ⟨h', desc', .pop () as.head?, as.tail, ?_, rfl, apply_pop as as.head?, hd', hfresh, ?_⟩
    · simp [QueueOp.call, hcall]
    · exact List.length_tail

/-! ## Whole runs -/

/-- What is not there and does not come is not there later. -/
theorem not_mem_drain {log : List (Entry Unit Addr)} {q : Queues Unit Addr} {a : Addr}
    (ha : a ∉ q ()) (hlog : Entry.push () a ∉ log) : a ∉ drain q log () := by
  induction log generalizing q with
  | nil => exact ha
  | cons entry log ih =>
    rw [List.mem_cons, not_or] at hlog
    refine ih ?_ hlog.2
    cases entry with
    | push k v =>
      have hne : a ≠ v := fun heq => hlog.1 (by rw [heq])
      simp [Entry.apply, ha, hne]
    | pop k ans =>
      simp only [Entry.apply, Function.update_self]
      exact fun hmem => ha (List.mem_of_mem_tail hmem)

/-- What was taken out of a log and not put back is not in the queue. -/
def TakenAreGone (q : Queues Unit Addr) (log : List (Entry Unit Addr)) : Prop :=
  ∀ before a after, log = before ++ .pop () (some a) :: after → .push () a ∉ after →
    a ∉ drain q log ()

theorem TakenAreGone.cons {entry : Entry Unit Addr} {log : List (Entry Unit Addr)}
    (hnd : as.Nodup) (hok : entry.Ok (single as))
    (hlog : TakenAreGone (entry.apply (single as)) log) :
    TakenAreGone (single as) (entry :: log) := by
  intro before a after heq hpush
  cases before with
  | nil =>
    obtain ⟨rfl, rfl⟩ := List.cons.inj heq
    obtain ⟨as', rfl⟩ := List.head?_eq_some_iff.mp (Eq.symm hok : as.head? = some a)
    rw [drain_cons, apply_pop]
    exact not_mem_drain (List.nodup_cons.mp hnd).1 hpush
  | cons _ before => exact hlog before a after (List.cons.inj heq).2 hpush

/-- A fresh run for which there is room goes through, and the log is one of a FIFO queue that is
    there in the end. -/
theorem QueueOp.run_spec {ops : List QueueOp} (hd : IntDescOk h desc as) (hfresh : Fresh as ops)
    (hroom : ∀ before, before <+: ops → held as.length before < 2 ^ 31) :
    ∃ h' desc' log, QueueOp.run h desc ops = some (h', desc', log) ∧ Serves (single as) log ∧
      IntDescOk h' desc' (drain (single as) log ()) ∧ TakenAreGone (single as) log := by
  induction ops generalizing h desc as with
  | nil =>
    refine ⟨h, desc, [], rfl, trivial, hd, ?_⟩
    intro before a after heq
    exact absurd heq (by simp)
  | cons op ops ih =>
    have hhere : held as.length [op] < 2 ^ 31 := hroom [op] (List.prefix_append [op] ops)
    obtain ⟨h₁, desc₁, entry, as₁, hcall, hok, happly, hd₁, hfresh₁, hlen⟩ :=
      op.call_spec hd hfresh hhere
    have hrest : ∀ before, before <+: ops → held as₁.length before < 2 ^ 31 := by
      intro before hbefore
      rw [hlen, ← held_cons]
      exact hroom (op :: before) (List.cons_prefix_cons.mpr ⟨rfl, hbefore⟩)
    obtain ⟨h₂, desc₂, log, hrun, hserves, hd₂, hgone⟩ := ih hd₁ hfresh₁ hrest
    rw [← happly] at hserves hd₂ hgone
    refine ⟨h₂, desc₂, entry :: log, ?_, ⟨hok, hserves⟩, hd₂, hgone.cons hd.nodup hok⟩
    simp [QueueOp.run, hcall, hrun]

theorem Fresh.left {before after : List QueueOp} (hfresh : Fresh as (before ++ after)) :
    Fresh as before := by
  induction before generalizing as with
  | nil => trivial
  | cons op before ih =>
    cases op with
    | enqueue new e => exact ⟨hfresh.1, ih hfresh.2⟩
    | dequeue =>
      have htail : Fresh as.tail (before ++ after) := hfresh
      exact ih htail

/-- What a log leaves in the queue is as much as the calls say. -/
theorem length_drain {ops : List QueueOp} {h' : Heap Elem} {desc' : IntDesc}
    {log : List (Entry Unit Addr)} {q : Queues Unit Addr}
    (hrun : QueueOp.run h desc ops = some (h', desc', log)) :
    (drain q log ()).length = held (q ()).length ops := by
  induction ops generalizing h desc log q with
  | nil =>
    cases hrun
    rfl
  | cons op ops ih =>
    simp only [QueueOp.run, Option.bind_eq_bind, Option.bind_eq_some_iff] at hrun
    obtain ⟨⟨h₁, desc₁, entry⟩, hcall, ⟨h₂, desc₂, log₂⟩, hrest, hret⟩ := hrun
    cases hret
    rw [drain_cons, ih hrest, held_cons]
    congr 1
    cases op with
    | enqueue new e =>
      simp only [QueueOp.call, Option.bind_eq_bind, Option.bind_eq_some_iff] at hcall
      obtain ⟨_, -, hret⟩ := hcall
      cases hret
      simp [Entry.apply, held]
    | dequeue =>
      simp only [QueueOp.call, Option.bind_eq_bind, Option.bind_eq_some_iff] at hcall
      obtain ⟨_, -, hret⟩ := hcall
      cases hret
      simp [Entry.apply, held]

/-- What is represented is counted by an `int`. -/
theorem held_lt_of_kept {ops : List QueueOp} (hkept : Kept h ops) : held 0 ops < 2 ^ 31 := by
  obtain ⟨h', desc, log, hrun, -, hrep, -⟩ := hkept
  have hlt := desc.n.toInt_lt
  rw [hrep.n, ncard_of_mem_iff hrep.reachable hrep.nodup, length_drain hrun] at hlt
  exact Int.ofNat_lt.mp hlt

theorem kept_of_held {ops : List QueueOp} (hfresh : Fresh [] ops)
    (hroom : ∀ before, before <+: ops → held 0 before < 2 ^ 31) : Kept h ops := by
  obtain ⟨h', desc, log, hrun, hserves, hd, hgone⟩ :=
    QueueOp.run_spec (IntDescOk.empty h) hfresh hroom
  refine ⟨h', desc, log, hrun, hserves, hd.represents, ?_⟩
  intro l a l' hlog hpush
  rw [hd.reachable]
  exact hgone l a l' hlog hpush

/-- **After every call of a run the links are those of the FIFO queue**, exactly if there are never
    more elements than an `int` counts. -/
theorem links_kept_iff (h : Heap Elem) {ops : List QueueOp} (hfresh : Fresh [] ops) :
    (∀ before, before <+: ops → Kept h before) ↔
      ∀ before, before <+: ops → held 0 before < 2 ^ 31 := by
  constructor
  · intro hkept before hbefore
    exact held_lt_of_kept (hkept before hbefore)
  · rintro hroom before ⟨after, rfl⟩
    apply kept_of_held hfresh.left
    intro before' hbefore'
    exact hroom before' (hbefore'.trans (List.prefix_append before after))

theorem held_le (k : Nat) (ops : List QueueOp) : held k ops ≤ k + ops.length := by
  induction ops generalizing k with
  | nil => exact le_refl k
  | cons op ops ih =>
    cases op with
    | enqueue new e =>
      have hle := ih (k + 1)
      rw [held, List.length_cons]
      omega
    | dequeue =>
      have hle := ih (k - 1)
      rw [held, List.length_cons]
      omega

/-- A queue that gets empty in between, and an element that comes again with stale pointers. -/
def reused : List QueueOp :=
  [.enqueue 1 ⟨[], none, none⟩, .dequeue, .enqueue 1 ⟨[], some 7, some 1⟩]

theorem links_kept_iff_reused : Kept (fun _ => none) reused := by
  have hfresh : Fresh [] reused := ⟨List.not_mem_nil, List.not_mem_nil, trivial⟩
  refine (links_kept_iff (fun _ => none) hfresh).mpr ?_ reused List.prefix_rfl
  intro before hbefore
  have hle := held_le 0 before
  have hlen : before.length ≤ 3 := hbefore.length_le
  omega

/-- One element after the other is put in, and none is taken out. -/
def enqueues (l : List Addr) : List QueueOp := l.map fun a => .enqueue a ⟨[], none, none⟩

theorem fresh_enqueues {l : List Addr} (hnd : l.Nodup) (hnew : ∀ a ∈ l, a ∉ as) :
    Fresh as (enqueues l) := by
  induction l generalizing as with
  | nil => trivial
  | cons a l ih =>
    obtain ⟨ha, hnd⟩ := List.nodup_cons.mp hnd
    refine ⟨hnew a List.mem_cons_self, ih hnd ?_⟩
    intro b hb hmem
    rcases List.mem_append.mp hmem with hmem | hmem
    · exact hnew b (List.mem_cons_of_mem a hb) hmem
    · exact ha (List.mem_singleton.mp hmem ▸ hb)

theorem held_enqueues (k : Nat) (l : List Addr) : held k (enqueues l) = k + l.length := by
  induction l generalizing k with
  | nil => rfl
  | cons a l ih =>
    rw [enqueues, List.map_cons, held, ← enqueues, ih, List.length_cons]
    omega

/-- As many elements as an `int` does not count. -/
def manyElems : List QueueOp := enqueues (List.range (2 ^ 31))

theorem manyElems_not_kept :
    Fresh [] manyElems ∧ ¬ ∀ before, before <+: manyElems → Kept (fun _ => none) before := by
  -- a name for the list, which is too long to be looked at
  obtain ⟨l, hl⟩ : ∃ l, l = List.range (2 ^ 31) := ⟨_, rfl⟩
  have hmany : manyElems = enqueues l := by rw [manyElems, hl]
  have hnd : l.Nodup := by
    rw [hl]
    exact List.nodup_range
  have hlen : l.length = 2 ^ 31 := by rw [hl, List.length_range]
  rw [hmany]
  refine ⟨fresh_enqueues hnd fun _ _ => List.not_mem_nil, ?_⟩
  intro hkept
  have hlt := held_lt_of_kept (hkept (enqueues l) List.prefix_rfl)
  rw [held_enqueues, hlen, Nat.zero_add] at hlt
  exact Nat.lt_irrefl (2 ^ 31) hlt

end Keys
end Akypuera

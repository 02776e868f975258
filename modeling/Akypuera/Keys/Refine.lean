import Akypuera.Keys.Store
import Akypuera.Lib.Fifo

/-!
# The store refines a map of FIFO queues

What the store is for, in its own terms: a triple `(type, src, dst)` names a queue, putting
appends a fresh key and getting takes the oldest. `KeyStore` carries the invariant under
which no call crashes, so its `call` is total, and `Tracks ks q` says that the queues of the
triples that fit the 200 byte buffer are those of the abstract map `q`.

**Distinct triples have distinct table keys** (`tableKey_inj`), which is the frame; and
**distinct counter values print as distinct keys** (`linkKey_inj`), which makes the keys of a
run pairwise distinct until the 64-bit counter comes round.

The store here has counts that never overflow. `Akypuera.Keys.Overflow` says how far the one with
`int` counts is the same.

Every caller in the repository passes a buffer of `AKY_DEFAULT_STR_SIZE` bytes, and so does
`call`.
-/

set_option autoImplicit false

namespace Akypuera
namespace Keys

open CText Chain Search Fifo

/-- The invariant of a store. -/
structure StoreOf.Ok (st : Store) : Prop where
  shape : ∃ c, Shape st c
  whole : ∀ k, ∀ s ∈ queueAt st k, Whole s

/-- A call that rewrites one queue keeps the invariant if the new contents are whole. -/
theorem StoreOf.Ok.of_update {st st' : Store} (h : st.Ok) {k : Str} {xs : List Str}
    (hshape : ∃ c, Shape st' c) (hqueue : queueAt st' = Function.update (queueAt st) k xs)
    (hxs : ∀ s ∈ xs, Whole s) : st'.Ok := by
  refine ⟨hshape, ?_⟩
  intro k' s hs
  rw [hqueue] at hs
  by_cases hk : k' = k
  · rw [hk, Function.update_self] at hs
    exact hxs s hs
  · rw [Function.update_of_ne hk] at hs
    exact h.whole k' s hs

/-! ## Calls -/

/-- A triple that names a queue. -/
abbrev Triple := Str × Int32 × Int32

/-- A call on the store. -/
inductive Op where
  | put (t : Triple)
  | get (t : Triple)
  deriving DecidableEq

def Op.triple : Op → Triple
  | put t => t
  | get t => t

def Triple.tableKey (t : Triple) : Str := Keys.tableKey t.1 t.2.1 t.2.2

def Triple.Fits (t : Triple) : Prop := Keys.Fits t.1 t.2.1 t.2.2

theorem Triple.tableKey_inj {t t' : Triple} (h : t.Fits) (h' : t'.Fits)
    (heq : t.tableKey = t'.tableKey) : t = t' := by
  obtain ⟨h₁, h₂, h₃⟩ := Keys.tableKey_inj h h' heq
  exact Prod.ext h₁ (Prod.ext h₂ h₃)

/-- The function called. -/
def StoreOf.call {δ : Type} [Descriptor δ] (st : StoreOf δ) : Op → Option (StoreOf δ × Answer)
  | .put t => akyPutKey st t.1 t.2.1 t.2.2 akyDefaultStrSize
  | .get t => akyGetKey st t.1 t.2.1 t.2.2 akyDefaultStrSize

/-- The answer as a C string. -/
def Answer.text (a : Answer) : Option Str := if a.nonNull then some (cstr a.key) else none

/-- What a caller sees of a call: the key put, or the answer got. -/
def Op.entry (a : Answer) : Op → Entry Triple Str
  | put t => .push t (cstr a.key)
  | get t => .pop t a.text

/-- What a put does when the table has room. -/
structure PutSpec (st : Store) (t : Triple) (st' : Store) (a : Answer) : Prop where
  nonNull : a.nonNull = true
  text : cstr a.key = linkKey t.2.1 t.2.2 st.counter
  counter : st'.counter = st.counter + 1
  queue : queueAt st' = Function.update (queueAt st) t.tableKey
    (queueAt st t.tableKey ++ [linkKey t.2.1 t.2.2 st.counter])

/-- What a get does. -/
structure GetSpec (st : Store) (t : Triple) (st' : Store) (a : Answer) : Prop where
  text : a.text = (queueAt st t.tableKey).head?
  null : a.nonNull = false → a.key = zeroed akyDefaultStrSize
  counter : st'.counter = st.counter
  queue : queueAt st' = Function.update (queueAt st) t.tableKey (queueAt st t.tableKey).tail

/-- What a call does. -/
structure CallSpec (st : Store) (op : Op) (st' : Store) (a : Answer) : Prop where
  put : ∀ t, op = .put t → room st t.tableKey = true → PutSpec st t st' a
  full : ∀ t, op = .put t → room st t.tableKey = false →
    st' = st ∧ a = { nonNull := false, key := zeroed akyDefaultStrSize }
  get : ∀ t, op = .get t → GetSpec st t st' a
  size : st'.hash.size = st.hash.size

/-- **No call crashes**, and each does what it should. -/
theorem StoreOf.Ok.call {st : Store} (h : st.Ok) (op : Op) :
    ∃ st' a, st.call op = some (st', a) ∧ st'.Ok ∧ CallSpec st op st' a := by
  obtain ⟨c, hc⟩ := h.shape
  cases op with
  | put t =>
    cases hroom : room st t.tableKey with
    | false =>
      refine ⟨st, _, put_of_full t.1 t.2.1 t.2.2 _ hroom, h, ⟨?_, ?_, ?_, rfl⟩⟩
      · rintro t' ⟨⟩ hr
        exact absurd (hroom.symm.trans hr) (by simp)
      · exact fun _ _ _ => ⟨rfl, rfl⟩
      · exact fun _ hop => absurd hop (by simp)
    | true =>
      obtain ⟨st', hcall, hshape, hcounter, hsize, hqueue⟩ :=
        hc.put t.1 t.2.1 t.2.2 akyDefaultStrSize hroom
      rw [cstr_linkKey] at hqueue
      refine ⟨st', _, hcall, h.of_update hshape hqueue ?_, ⟨?_, ?_, ?_, hsize⟩⟩
      · intro s hs
        rcases List.mem_append.mp hs with hs | hs
        · exact h.whole _ s hs
        · rw [List.mem_singleton.mp hs]
          exact whole_linkKey ..
      · rintro t' ⟨⟩ _
        refine ⟨rfl, ?_, hcounter, hqueue⟩
        dsimp only
        exact cstr_linkKey t.2.1 t.2.2 st.counter
      · rintro t' ⟨⟩ hr
        exact absurd (hroom.symm.trans hr) (by simp)
      · exact fun _ hop => absurd hop (by simp)
  | get t =>
    obtain ⟨st', a, hcall, hshape, hcounter, hsize, hqueue, hans⟩ :=
      hc.get t.1 t.2.1 t.2.2 akyDefaultStrSize
    refine ⟨st', a, hcall, h.of_update hshape hqueue fun s hs =>
      h.whole _ s (List.mem_of_mem_tail hs), ⟨?_, ?_, ?_, hsize⟩⟩
    · exact fun _ hop => absurd hop (by simp)
    · exact fun _ hop => absurd hop (by simp)
    · rintro t' ⟨⟩
      have hw := h.whole (Keys.tableKey t.1 t.2.1 t.2.2)
      cases hq : queueAt st (Keys.tableKey t.1 t.2.1 t.2.2) with
      | nil =>
        have hempty : queueAt st t.tableKey = [] := hq
        rw [hq] at hans
        subst hans
        exact ⟨by rw [hempty]; rfl, fun _ => rfl, hcounter, hqueue⟩
      | cons s rest =>
        have hcons : queueAt st t.tableKey = s :: rest := hq
        have hs : Whole s := hw s (by rw [hq]; simp)
        rw [hq] at hans
        subst hans
        refine ⟨?_, fun hnull => absurd hnull (by simp), hcounter, hqueue⟩
        rw [hcons]
        simp [Answer.text, hs.cstr_snprintf]

/-! ## The store as a type -/

/-- A store no call can crash on. -/
def KeyStore : Type := { st : Store // st.Ok }

namespace KeyStore

/-- The store `aky_key_init` sets up. -/
def init (size : Option Nat) : KeyStore :=
  ⟨akyKeyInit size, ⟨_, Shape.init size⟩, fun k s hs => by
    rw [queueAt_init] at hs
    exact absurd hs (by simp)⟩

theorem call_isSome (ks : KeyStore) (op : Op) : (ks.1.call op).isSome = true := by
  obtain ⟨st', a, hcall, _⟩ := ks.2.call op
  rw [hcall]
  rfl

/-- `aky_put_key` and `aky_get_key` as total functions. -/
def call (ks : KeyStore) (op : Op) : KeyStore × Answer :=
  (⟨((ks.1.call op).get (ks.call_isSome op)).1, by
      obtain ⟨st', a, hcall, hok, _⟩ := ks.2.call op
      simp only [hcall, Option.get_some]
      exact hok⟩, ((ks.1.call op).get (ks.call_isSome op)).2)

theorem call_val (ks : KeyStore) (op : Op) :
    ks.1.call op = some ((ks.call op).1.1, (ks.call op).2) := by
  simp [call]

end KeyStore

/-- What a program sees of the link keys: how they begin, and the two calls. -/
class LinkKeys (σ : Type) where
  init : Option Nat → σ
  call : σ → Op → σ × Answer

instance : LinkKeys KeyStore where
  init := KeyStore.init
  call := KeyStore.call

@[simp] theorem linkKeys_init (size : Option Nat) :
    (LinkKeys.init size : KeyStore) = KeyStore.init size := rfl

@[simp] theorem linkKeys_call (ks : KeyStore) (op : Op) : LinkKeys.call ks op = ks.call op := rfl

namespace KeyStore

/-- A table that never fills up. -/
def Unbounded (ks : KeyStore) : Prop := ks.1.hash.size = none

theorem call_spec (ks : KeyStore) (op : Op) :
    CallSpec ks.1 op (ks.call op).1.1 (ks.call op).2 := by
  obtain ⟨st', a, hcall, _, hspec⟩ := ks.2.call op
  have heq := ks.call_val op
  rw [hcall] at heq
  cases heq
  exact hspec

theorem put_spec {ks : KeyStore} (hu : ks.Unbounded) (t : Triple) :
    PutSpec ks.1 t (ks.call (.put t)).1.1 (ks.call (.put t)).2 := by
  have hroom : room ks.1 t.tableKey = true := by simp [room, HTab.full_of_size_none hu]
  exact (ks.call_spec _).put t rfl hroom

theorem get_spec (ks : KeyStore) (t : Triple) :
    GetSpec ks.1 t (ks.call (.get t)).1.1 (ks.call (.get t)).2 := (ks.call_spec _).get t rfl

theorem unbounded_call {ks : KeyStore} (hu : ks.Unbounded) (op : Op) :
    (ks.call op).1.Unbounded := (ks.call_spec op).size.trans hu

/-- The store after some calls. -/
def final (ks : KeyStore) : List Op → KeyStore
  | [] => ks
  | op :: ops => final (ks.call op).1 ops

/-- What the callers see of them. -/
def log (ks : KeyStore) : List Op → List (Entry Triple Str)
  | [] => []
  | op :: ops => op.entry (ks.call op).2 :: log (ks.call op).1 ops

theorem final_append (ks : KeyStore) (ops ops' : List Op) :
    ks.final (ops ++ ops') = (ks.final ops).final ops' := by
  induction ops generalizing ks with
  | nil => rfl
  | cons op ops ih => exact ih _

theorem log_append (ks : KeyStore) (ops ops' : List Op) :
    ks.log (ops ++ ops') = ks.log ops ++ (ks.final ops).log ops' := by
  induction ops generalizing ks with
  | nil => rfl
  | cons op ops ih => simp [log, final, ih]

theorem length_log_ops (ks : KeyStore) (ops : List Op) : (ks.log ops).length = ops.length := by
  induction ops generalizing ks with
  | nil => rfl
  | cons op ops ih => exact congrArg (· + 1) (ih _)

/-- The store holds the queues `q`, as far as the triples fit its keys. -/
def Tracks (ks : KeyStore) (q : Queues Triple Str) : Prop :=
  ∀ t : Triple, t.Fits → queueAt ks.1 t.tableKey = q t

theorem tracks_init (size : Option Nat) : (init size).Tracks Queues.empty :=
  fun _ _ => queueAt_init size _

/-- A get takes what there is from its own queue. -/
theorem Tracks.get {ks : KeyStore} {q : Queues Triple Str} (h : ks.Tracks q) {t : Triple}
    (hf : t.Fits) : (ks.call (.get t)).1.Tracks (Function.update q t (q t).tail) := by
  intro t' hf'
  rw [(ks.get_spec t).queue]
  by_cases ht : t' = t
  · subst ht
    simp [h t' hf]
  · have hk : t'.tableKey ≠ t.tableKey := fun hk => ht (Triple.tableKey_inj hf' hf hk)
    simp [hk, ht, h t' hf']

/-- **One call** of the store is one operation of the queues. -/
theorem Tracks.call {ks : KeyStore} {q : Queues Triple Str} (h : ks.Tracks q)
    (hu : ks.Unbounded) {op : Op} (hf : op.triple.Fits) :
    (op.entry (ks.call op).2).Ok q ∧
      (ks.call op).1.Tracks ((op.entry (ks.call op).2).apply q) := by
  cases op with
  | put t =>
    have hspec := put_spec hu t
    refine ⟨trivial, ?_⟩
    intro t' hf'
    rw [hspec.queue]
    by_cases ht : t' = t
    · subst ht
      simp [Op.entry, Entry.apply, hspec.text, h t' hf]
    · have hk : t'.tableKey ≠ t.tableKey := fun hk => ht (Triple.tableKey_inj hf' hf hk)
      simp [Op.entry, Entry.apply, hk, ht, h t' hf']
  | get t =>
    exact ⟨(ks.get_spec t).text.trans (by rw [h t hf]), h.get hf⟩

/-- **Any run** of the store is one of the queues. -/
theorem Tracks.serves {ks : KeyStore} {q : Queues Triple Str} (h : ks.Tracks q)
    (hu : ks.Unbounded) {ops : List Op} (hf : ∀ op ∈ ops, op.triple.Fits) :
    Serves q (ks.log ops) := by
  induction ops generalizing ks q with
  | nil => trivial
  | cons op ops ih =>
    have hop := h.call hu (hf op (by simp))
    exact ⟨hop.1, ih hop.2 (unbounded_call hu op) fun o ho => hf o (by simp [ho])⟩

/-! ## Distinct keys -/

/-- How many keys a run makes. -/
def puts : List Op → Nat
  | [] => 0
  | .put _ :: ops => puts ops + 1
  | .get _ :: ops => puts ops

theorem length_log (ks : KeyStore) (ops : List Op) :
    (allPushed (ks.log ops)).length = puts ops := by
  induction ops generalizing ks with
  | nil => rfl
  | cons op ops ih =>
    cases op with
    | put t => exact congrArg (· + 1) (ih _)
    | get t => exact ih _

/-- Every key made carries a counter value, counted from where the store stands. -/
theorem mem_allPushed_log {ks : KeyStore} (hu : ks.Unbounded) {ops : List Op} {s : Str}
    (hs : s ∈ allPushed (ks.log ops)) :
    ∃ src dst i, i < puts ops ∧ s = linkKey src dst (ks.1.counter + UInt64.ofNat i) := by
  induction ops generalizing ks with
  | nil => exact absurd hs (by simp [log, allPushed])
  | cons op ops ih =>
    cases op with
    | put t =>
      have hspec := put_spec hu t
      rcases List.mem_cons.mp hs with rfl | hs
      · exact ⟨t.2.1, t.2.2, 0, Nat.succ_pos _, by simp [hspec.text]⟩
      · obtain ⟨src, dst, i, hi, rfl⟩ := ih (unbounded_call hu _) hs
        refine ⟨src, dst, i + 1, Nat.succ_lt_succ hi, ?_⟩
        rw [hspec.counter, UInt64.ofNat_add, UInt64.add_assoc, UInt64.add_comm 1]
        rfl
    | get t =>
      obtain ⟨src, dst, i, hi, rfl⟩ := ih (unbounded_call hu _) hs
      exact ⟨src, dst, i, hi, by rw [(ks.get_spec t).counter]⟩

/-- **The keys of a run are pairwise distinct** until the counter comes round. -/
theorem nodup_log {ks : KeyStore} (hu : ks.Unbounded) {ops : List Op}
    (hputs : puts ops ≤ 2 ^ 64) : (allPushed (ks.log ops)).Nodup := by
  induction ops generalizing ks with
  | nil => exact List.nodup_nil
  | cons op ops ih =>
    cases op with
    | put t =>
      have hspec := put_spec hu t
      simp only [puts] at hputs
      refine List.nodup_cons.mpr ⟨?_, ih (unbounded_call hu _) (by omega)⟩
      intro hmem
      obtain ⟨src, dst, i, hi, heq⟩ := mem_allPushed_log (unbounded_call hu _) hmem
      rw [hspec.text, hspec.counter] at heq
      have hc := congrArg UInt64.toNat (linkKey_inj heq).2.2
      simp only [UInt64.toNat_add, UInt64.toNat_ofNat'] at hc
      have hlt := ks.1.counter.toNat_lt
      have hone : (1 : UInt64).toNat = 1 := rfl
      omega
    | get t => exact ih (unbounded_call hu _) hputs

end KeyStore

/-! ## Runs of the functions themselves -/

/-- A call in a run, with the store before and after it. -/
structure CallOf (δ : Type) where
  before : StoreOf δ
  op : Op
  ans : Answer
  after : StoreOf δ

/-- A call on the store that never overflows. -/
abbrev Call : Type := CallOf Desc

def CallOf.entry {δ : Type} (c : CallOf δ) : Entry Triple Str := c.op.entry c.ans

/-- The calls of a run, or `none` if one of them crashes. -/
def StoreOf.calls {δ : Type} [Descriptor δ] (st : StoreOf δ) :
    List Op → Option (List (CallOf δ))
  | [] => some []
  | op :: ops => do
      let (st', a) ← st.call op
      let rest ← StoreOf.calls st' ops
      return { before := st, op := op, ans := a, after := st' } :: rest

/-- The same run on the store as a type. -/
def KeyStore.calls (ks : KeyStore) : List Op → List Call
  | [] => []
  | op :: ops =>
      { before := ks.1, op := op, ans := (ks.call op).2, after := (ks.call op).1.1 } ::
        KeyStore.calls (ks.call op).1 ops

theorem KeyStore.calls_val (ks : KeyStore) (ops : List Op) :
    ks.1.calls ops = some (ks.calls ops) := by
  induction ops generalizing ks with
  | nil => rfl
  | cons op ops ih => simp [StoreOf.calls, KeyStore.calls, ks.call_val op, ih]

theorem KeyStore.calls_op (ks : KeyStore) (ops : List Op) :
    (ks.calls ops).map CallOf.op = ops := by
  induction ops generalizing ks with
  | nil => rfl
  | cons op ops ih => simp [KeyStore.calls, ih]

theorem KeyStore.calls_entry (ks : KeyStore) (ops : List Op) :
    (ks.calls ops).map CallOf.entry = ks.log ops := by
  induction ops generalizing ks with
  | nil => rfl
  | cons op ops ih => simp [KeyStore.calls, KeyStore.log, CallOf.entry, ih]

theorem KeyStore.calls_spec {ks : KeyStore} (hu : ks.Unbounded) {ops : List Op} {c : Call}
    (hc : c ∈ ks.calls ops) :
    (∀ k, room c.before k = true) ∧ CallSpec c.before c.op c.after c.ans := by
  induction ops generalizing ks with
  | nil => exact absurd hc (by simp [KeyStore.calls])
  | cons op ops ih =>
    rcases List.mem_cons.mp hc with rfl | hc
    · exact ⟨fun k => by simp [room, HTab.full_of_size_none hu], ks.call_spec op⟩
    · exact ih (unbounded_call hu op) hc

/-- A call leaves the queue of every other triple alone. -/
theorem CallSpec.frame {st st' : Store} {op : Op} {a : Answer} (h : CallSpec st op st' a)
    (hf : op.triple.Fits) {t : Triple} (hft : t.Fits) (hne : t ≠ op.triple) :
    queueAt st' t.tableKey = queueAt st t.tableKey := by
  have hk : t.tableKey ≠ op.triple.tableKey := fun hk => hne (Triple.tableKey_inj hft hf hk)
  cases op with
  | put t' =>
    cases hroom : room st t'.tableKey with
    | false => rw [(h.full t' rfl hroom).1]
    | true =>
      rw [(h.put t' rfl hroom).queue]
      exact Function.update_of_ne hk ..
  | get t' =>
    rw [(h.get t' rfl).queue]
    exact Function.update_of_ne hk ..

/-- A get that answers `NULL` leaves every queue alone. -/
theorem GetSpec.queue_of_null {st st' : Store} {t : Triple} {a : Answer}
    (h : GetSpec st t st' a) (hnull : a.nonNull = false) : queueAt st' = queueAt st := by
  have hempty : queueAt st t.tableKey = [] := by
    simpa [Answer.text, hnull] using h.text.symm
  rw [h.queue, hempty, List.tail_nil, ← hempty, Function.update_eq_self]

/-- What the calls of a run from a fresh store are, whose table does not fill up: the answers are those
    of one queue per triple; a `NULL` answer comes with a zeroed buffer and changes no queue; no call
    touches the queue of another triple; and the keys made are pairwise distinct. -/
structure Refines {δ : Type} [Descriptor δ] (ops : List Op) (cs : List (CallOf δ)) : Prop where
  op : cs.map CallOf.op = ops
  serves : Serves Queues.empty (cs.map CallOf.entry)
  put : ∀ c ∈ cs, ∀ t, c.op = .put t → c.ans.nonNull = true
  null : ∀ c ∈ cs, ∀ t, c.op = .get t → c.ans.nonNull = false →
    c.ans.key = zeroed akyDefaultStrSize ∧ queueAt c.after = queueAt c.before
  frame : ∀ c ∈ cs, ∀ t : Triple, t.Fits → t ≠ c.op.triple →
    queueAt c.after t.tableKey = queueAt c.before t.tableKey
  distinct : KeyStore.puts ops < 2 ^ 64 → (allPushed (cs.map CallOf.entry)).Nodup

/-- **The store that never overflows is a map of FIFO queues.** -/
theorem KeyStore.refines {ops : List Op} (hfits : ∀ op ∈ ops, op.triple.Fits) :
    Refines ops ((KeyStore.init none).calls ops) := by
  have hu : (KeyStore.init none).Unbounded := rfl
  refine ⟨KeyStore.calls_op _ ops, ?_, ?_, ?_, ?_, ?_⟩
  · rw [KeyStore.calls_entry]
    exact (KeyStore.tracks_init none).serves hu hfits
  · intro c hc t ht
    have hspec := KeyStore.calls_spec hu hc
    exact (hspec.2.put t ht (hspec.1 _)).nonNull
  · intro c hc t ht hnull
    have hspec := (KeyStore.calls_spec hu hc).2.get t ht
    exact ⟨hspec.null hnull, hspec.queue_of_null hnull⟩
  · intro c hc t hft hne
    have hop : c.op ∈ ops := by
      rw [← KeyStore.calls_op (KeyStore.init none) ops]
      exact List.mem_map_of_mem hc
    exact (KeyStore.calls_spec hu hc).2.frame (hfits _ hop) hft hne
  · intro hputs
    rw [KeyStore.calls_entry]
    exact KeyStore.nodup_log hu (Nat.le_of_lt hputs)

end Keys
end Akypuera

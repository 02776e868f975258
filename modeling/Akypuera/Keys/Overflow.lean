import Akypuera.Keys.Capacity

/-!
# The store with its counts

The store of the repository has descriptors with an `int` (`IntStore`). What is known of the
store that counts without an end (`Store`) is known of it as long as no queue is full: **a call
answers the same** (`Counted.call`) **until some queue holds `2 ^ 31` keys**, and then it overflows
(`Counted.call_overflow`).

So whole runs go through, and answer as those of the other store, exactly if no queue ever holds
that many (`Counted.calls_iff`). Whether one does can be said of the requests alone
(`KeyStore.few_iff`).
-/

set_option autoImplicit false

namespace Akypuera
namespace Keys

open CText Chain Search Fifo

/-- A store and the one that counts without an end. -/
structure Counted (st : IntStore) (ks : Store) : Prop where
  heap : st.heap = ks.heap
  brk : st.brk = ks.brk
  hash : HTab.Related Counts st.hash ks.hash
  counter : st.counter = ks.counter

theorem Counted.init (size : Option Nat) : Counted (akyKeyInit size) (akyKeyInit size) :=
  ⟨rfl, rfl, HTab.Related.create size, rfl⟩

variable {st st' : IntStore} {ks ks' : Store} {type : Str} {src dst : Int32} {n : Nat}
  {a : Answer}

/-- What waits under a key is the same in both. -/
theorem Counted.queueAt_eq (h : Counted st ks) (k : Str) : queueAt st k = queueAt ks k := by
  unfold queueAt
  cases hk : ks.hash.find k with
  | none => rw [h.hash.find_none hk]
  | some d =>
    obtain ⟨desc, hdesc, hcounts⟩ := h.hash.find_some hk
    have hcount : Descriptor.count desc = Descriptor.count d := by
      show desc.n.toInt.toNat = d.n
      rw [hcounts.n, Int.toNat_natCast]
    have hfirst : Descriptor.first desc = Descriptor.first d := hcounts.first
    rw [hdesc]
    simp only [hcount, hfirst, h.heap]

/-- Where a count is an `int`, no queue is longer. -/
theorem Counted.length_queueAt_lt {c : Str → List Addr} (h : Counted st ks) (hc : Shape ks c)
    (k : Str) : (queueAt ks k).length < 2 ^ 31 := by
  cases hk : ks.hash.find k with
  | none => simp [queueAt, hk]
  | some d =>
    obtain ⟨desc, -, hcounts⟩ := h.hash.find_some hk
    have hlt := desc.n.toInt_lt
    rw [hc.length_queueAt hk]
    have hn := hcounts.n
    omega

/-! ## One call -/

theorem akyGetKey_counts (h : Counted st ks) (hcall : akyGetKey ks type src dst n = some (ks', a)) :
    ∃ st', akyGetKey st type src dst n = some (st', a) ∧ Counted st' ks' := by
  unfold akyGetKey at hcall ⊢
  cases hk : ks.hash.find (tableKey type src dst) with
  | none =>
    simp only [hk] at hcall
    cases hcall
    simp only [h.hash.find_none hk]
    exact ⟨st, rfl, h⟩
  | some d =>
    obtain ⟨desc, hdesc, hcounts⟩ := h.hash.find_some hk
    simp only [hk, dequeue_desc, Option.bind_eq_bind, Option.bind_eq_some_iff] at hcall
    obtain ⟨⟨heap, d', elem⟩, hdequeue, hcall⟩ := hcall
    rw [← h.heap] at hdequeue
    obtain ⟨desc', hdequeue', hcounts'⟩ := IntDesc.dequeue_counts hcounts hdequeue
    have hdequeue' : Descriptor.dequeue st.heap desc = some (heap, desc', elem) := hdequeue'
    have hhash := h.hash.set (tableKey type src dst) hcounts'
    cases elem with
    | none =>
      cases hcall
      simp only [hdesc, hdequeue', Option.bind_eq_bind, Option.bind_some]
      exact ⟨_, rfl, rfl, h.brk, hhash, h.counter⟩
    | some elem =>
      simp only [Option.bind_eq_some_iff] at hcall
      obtain ⟨e, he, hret⟩ := hcall
      cases hret
      simp only [hdesc, hdequeue', Option.bind_eq_bind, Option.bind_some]
      rw [he]
      exact ⟨_, rfl, rfl, h.brk, hhash, h.counter⟩

theorem Counted.findOrEnter (h : Counted st ks) (k : Str) :
    Option.Rel (HTab.Related Counts) (findOrEnter st k) (findOrEnter ks k) := by
  unfold Keys.findOrEnter
  cases hk : ks.hash.find k with
  | none =>
    rw [h.hash.find_none hk]
    exact h.hash.enter hk Counts.empty
  | some d =>
    obtain ⟨desc, hdesc, -⟩ := h.hash.find_some hk
    rw [hdesc]
    exact .some h.hash

/-- A put that finds no room in the table. -/
theorem akyPutKey_refused (h : Counted st ks) (hroom : room ks (tableKey type src dst) = false) :
    akyPutKey st type src dst n = some (st, { nonNull := false, key := zeroed n }) := by
  have hnone : ks.hash.find (tableKey type src dst) = none := by
    cases hk : ks.hash.find (tableKey type src dst) with
    | none => rfl
    | some d => simp [room, hk] at hroom
  have hfull : ks.hash.full = true := by simpa [room, hnone] using hroom
  have hnone' := h.hash.find_none hnone
  unfold akyPutKey Keys.findOrEnter
  simp only [hnone', HTab.enter_of_find_none _ hnone', h.hash.full, hfull, if_true]

/-- A put that does: the descriptor it works on, and the key it makes, are the same in both. -/
theorem akyPutKey_room {c : Str → List Addr} (h : Counted st ks) (hc : Shape ks c)
    (hroom : room ks (tableKey type src dst) = true) :
    ∃ hash hash' desc d new, HTab.Related Counts hash hash' ∧ Counts desc d ∧
      d.n = (queueAt ks (tableKey type src dst)).length ∧
      (akyPutKey st type src dst n = (desc.enqueue new st.brk).bind fun r =>
        some ({ heap := r.1, brk := st.brk + 1, hash := hash.set (tableKey type src dst) r.2,
                counter := st.counter + 1 },
          { nonNull := true, key := snprintf (zeroed n) (linkKey src dst ks.counter) })) ∧
      akyPutKey ks type src dst n = (enqueue new d st.brk).bind fun r =>
        some ({ heap := r.1, brk := st.brk + 1, hash := hash'.set (tableKey type src dst) r.2,
                counter := st.counter + 1 },
          { nonNull := true, key := snprintf (zeroed n) (linkKey src dst ks.counter) }) := by
  obtain ⟨hash', d, hent', hfind', hdesc, -, -⟩ := hc.entered hroom
  have hent := h.findOrEnter (tableKey type src dst)
  rw [hent'] at hent
  cases hst : Keys.findOrEnter st (tableKey type src dst) with
  | none =>
    rw [hst] at hent
    cases hent
  | some hash =>
    rw [hst] at hent
    cases hent with
    | some hhash =>
      obtain ⟨desc, hfind, hcounts⟩ := hhash.find_some hfind'
      refine ⟨hash, hash', desc, d, Function.update st.heap st.brk (some
        { data := cstr (snprintf (zeroed n) (linkKey src dst ks.counter)), head := none,
          tail := none }), hhash, hcounts, ?_, ?_, ?_⟩
      · rw [hc.queueAt_eq, hdesc.n, hdesc.length_texts]
      · unfold akyPutKey newElement
        simp only [hst, hfind, h.counter, Option.bind_eq_bind, Option.bind_some]
        rfl
      · unfold akyPutKey newElement
        simp only [hent', hfind', ← h.heap, ← h.brk, ← h.counter, Option.bind_eq_bind,
          Option.bind_some]
        rfl

variable {store : KeyStore} {op : Op}

/-- The queue a call works on is one longer after a put that found room. -/
theorem KeyStore.length_put {t : Triple} (hroom : room store.1 t.tableKey = true) :
    (queueAt (store.call (.put t)).1.1 t.tableKey).length =
      (queueAt store.1 t.tableKey).length + 1 := by
  rw [((store.call_spec (.put t)).put t rfl hroom).queue, Function.update_self, List.length_append]
  rfl

/-- A call does not fill its queue up. -/
def KeyStore.Short (ks : KeyStore) : Op → Prop
  | .put t => (queueAt (ks.call (.put t)).1.1 t.tableKey).length < 2 ^ 31
  | .get _ => True

/-- **A call answers the same** unless it fills its queue up. -/
theorem Counted.call (h : Counted st store.1) (hlt : store.Short op) :
    ∃ st', st.call op = some (st', (store.call op).2) ∧ Counted st' (store.call op).1.1 := by
  have hval := store.call_val op
  cases op with
  | get t => exact akyGetKey_counts h hval
  | put t =>
    cases hroom : room store.1 t.tableKey with
    | false =>
      obtain ⟨hsame, hans⟩ := (store.call_spec (.put t)).full t rfl hroom
      rw [hsame, hans]
      exact ⟨st, akyPutKey_refused h hroom, h⟩
    | true =>
      obtain ⟨c, hc⟩ := store.2.shape
      obtain ⟨hash, hash', desc, d, new, hhash, hcounts, hn, hint, hput⟩ :=
        akyPutKey_room (n := akyDefaultStrSize) h hc hroom
      have hput' : akyPutKey store.1 t.1 t.2.1 t.2.2 akyDefaultStrSize = _ := hval
      rw [hput, Option.bind_eq_some_iff] at hput'
      obtain ⟨⟨heap, d'⟩, henqueue, hret⟩ := hput'
      rw [KeyStore.Short, KeyStore.length_put hroom] at hlt
      have hlt' : d.n + 1 < 2 ^ 31 := by rw [hn]; exact hlt
      obtain ⟨desc', henqueue', hcounts'⟩ := IntDesc.enqueue_counts hcounts hlt' henqueue
      simp only [Option.some.injEq, Prod.ext_iff] at hret
      have hcall : st.call (.put t) = akyPutKey st t.1 t.2.1 t.2.2 akyDefaultStrSize := rfl
      rw [hcall, hint, henqueue', ← hret.1, ← hret.2]
      exact ⟨_, rfl, rfl, rfl, hhash.set _ hcounts', rfl⟩

/-- **A call that fills its queue up overflows.** -/
theorem Counted.call_overflow (h : Counted st store.1) (hfull : ¬ store.Short op) :
    st.call op = none := by
  obtain ⟨c, hc⟩ := store.2.shape
  cases op with
  | get t => exact absurd trivial hfull
  | put t =>
    have hge := Nat.le_of_not_lt hfull
    cases hroom : room store.1 t.tableKey with
    | false =>
      have hlt := h.length_queueAt_lt hc t.tableKey
      rw [((store.call_spec (.put t)).full t rfl hroom).1] at hge
      omega
    | true =>
      obtain ⟨hash, hash', desc, d, new, hhash, hcounts, hn, hint, hput⟩ :=
        akyPutKey_room (n := akyDefaultStrSize) h hc hroom
      rw [KeyStore.length_put hroom] at hge
      have hge' : 2 ^ 31 ≤ d.n + 1 := by rw [hn]; exact hge
      have hcall : st.call (.put t) = akyPutKey st t.1 t.2.1 t.2.2 akyDefaultStrSize := rfl
      rw [hcall, hint, IntDesc.enqueue_overflow hcounts hge', Option.bind_none]

/-! ## Runs -/

/-- No queue ever fills up. -/
def KeyStore.Few (ks : KeyStore) : List Op → Prop
  | [] => True
  | op :: ops => ks.Short op ∧ Few (ks.call op).1 ops

/-- The same call in both stores. -/
structure CallOf.Same (c : CallOf IntDesc) (c' : Call) : Prop where
  op : c.op = c'.op
  ans : c.ans = c'.ans
  before : queueAt c.before = queueAt c'.before
  after : queueAt c.after = queueAt c'.after

/-- **Whole runs answer the same** while no queue fills up. -/
theorem Counted.calls {ops : List Op} (h : Counted st store.1) (hfew : store.Few ops) :
    ∃ cs, st.calls ops = some cs ∧ List.Forall₂ CallOf.Same cs (store.calls ops) := by
  induction ops generalizing st store with
  | nil => exact ⟨[], rfl, .nil⟩
  | cons op ops ih =>
    obtain ⟨st', hcall, h'⟩ := h.call hfew.1
    obtain ⟨cs, hcalls, hsame⟩ := ih h' hfew.2
    refine ⟨{ before := st, op := op, ans := (store.call op).2, after := st' } :: cs, ?_, .cons ?_ hsame⟩
    · simp [StoreOf.calls, hcall, hcalls]
    · exact ⟨rfl, rfl, funext h.queueAt_eq, funext h'.queueAt_eq⟩

/-- And otherwise they overflow. -/
theorem Counted.calls_overflow {ops : List Op} (h : Counted st store.1) (hmany : ¬ store.Few ops) :
    st.calls ops = none := by
  induction ops generalizing st store with
  | nil => exact absurd trivial hmany
  | cons op ops ih =>
    by_cases hlt : store.Short op
    · obtain ⟨st', hcall, h'⟩ := h.call hlt
      have hrest : ¬ (store.call op).1.Few ops := fun hfew => hmany ⟨hlt, hfew⟩
      simp [StoreOf.calls, hcall, ih h' hrest]
    · simp [StoreOf.calls, h.call_overflow hlt]

variable {cap : Option Nat} {opened : List Triple} {q : Queues Triple Str}

/-- **Whether a queue fills up, the requests tell**: those that are admitted. -/
theorem KeyStore.few_iff (ho : Opened store cap opened) (ht : store.Tracks q) {ops : List Op}
    (hf : ∀ op ∈ ops, op.triple.Fits) :
    store.Few ops ↔
      Within (2 ^ 31) (fun t => (q t).length) (admitted cap opened (ops.map Op.req)) := by
  induction ops generalizing store opened q with
  | nil => exact iff_of_true trivial trivial
  | cons op ops ih =>
    have hop : op.triple.Fits := hf op (by simp)
    have hrest : ∀ op' ∈ ops, op'.triple.Fits := fun op' hop' => hf op' (by simp [hop'])
    have ho' := ho.call hop
    have hlength : ∀ (t : Triple) (xs : List Str),
        (fun t' => (Function.update q t xs t').length) =
          Function.update (fun t' => (q t').length) t xs.length := by
      intro t xs
      funext t'
      by_cases heq : t' = t
      · subst heq; simp
      · simp [heq]
    cases op with
    | get t =>
      have hop : t.Fits := hop
      have hrec := ih ho' (ht.get hop) hrest
      rw [hlength, List.length_tail] at hrec
      exact (and_iff_right trivial).trans hrec
    | put t =>
      have hop : t.Fits := hop
      by_cases hmem : t ∈ openedBy cap opened t
      · have ht' := ho.tracks_call ht hop hmem
        have hrec := ih ho' ht' hrest
        rw [hlength, List.length_append] at hrec
        rw [List.map_cons, Op.req, admitted, if_pos hmem]
        refine and_congr ?_ hrec
        rw [KeyStore.Short, ht' t hop, Function.update_self, List.length_append]
        rfl
      · have hroom : room store.1 t.tableKey = false := by
          rw [← ho.room_iff hop] at hmem
          simpa using hmem
        have hsame : (store.call (.put t)).1 = store :=
          Subtype.ext ((store.call_spec (.put t)).full t rfl hroom).1
        have hshort : (queueAt store.1 t.tableKey).length < 2 ^ 31 := by
          have hnone : store.1.hash.find t.tableKey = none := by
            cases hk : store.1.hash.find t.tableKey with
            | none => rfl
            | some d => simp [room, hk] at hroom
          simp [queueAt, hnone]
        rw [List.map_cons, Op.req, admitted, if_neg hmem, ← ih ho ht hrest]
        rw [KeyStore.Few, KeyStore.Short, hsame]
        exact and_iff_right hshort

theorem KeyStore.few_init_iff (cap : Option Nat) {ops : List Op}
    (hf : ∀ op ∈ ops, op.triple.Fits) :
    (KeyStore.init cap).Few ops ↔
      Within (2 ^ 31) (fun _ => 0) (admitted cap [] (ops.map Op.req)) :=
  KeyStore.few_iff (opened_init cap) (KeyStore.tracks_init cap) hf

/-! ## The store as a program sees it -/

/-- The link keys of a program with the store of the repository. `none` is after an overflow: from there
    on nothing is defined. -/
abbrev IntKeys : Type := Option IntStore

instance : LinkKeys IntKeys where
  init size := some (akyKeyInit size)
  call ks op :=
    match ks.bind fun st => st.call op with
    | some (st, a) => (some st, a)
    | none => (none, { nonNull := false, key := zeroed akyDefaultStrSize })

/-- Both stores after the same calls. -/
def Keeps (ks : IntKeys) (store : KeyStore) : Prop := ∃ st, ks = some st ∧ Counted st store.1

theorem Keeps.init (size : Option Nat) :
    Keeps (LinkKeys.init size : IntKeys) (KeyStore.init size) := ⟨_, rfl, Counted.init size⟩

theorem Keeps.call {ks : IntKeys} (h : Keeps ks store) (hshort : store.Short op) :
    (LinkKeys.call ks op).2 = (store.call op).2 ∧
      Keeps (LinkKeys.call ks op).1 (store.call op).1 := by
  obtain ⟨st, rfl, hst⟩ := h
  obtain ⟨st', hcall, hst'⟩ := hst.call hshort
  simp only [LinkKeys.call, Option.bind_some, hcall]
  exact ⟨trivial, st', rfl, hst'⟩

/-- **A get that finds none leaves the store as it was.** -/
theorem Keeps.get_of_null {ks : IntKeys} (h : Keeps ks store) {t : Triple}
    (hnull : (LinkKeys.call ks (.get t)).2.nonNull = false) :
    (LinkKeys.call ks (.get t)).1 = ks := by
  obtain ⟨st, rfl, hst⟩ := h
  have hshort : store.Short (.get t) := trivial
  obtain ⟨st', hcall, -⟩ := hst.call hshort
  simp only [LinkKeys.call, Option.bind_some, hcall] at hnull ⊢
  rw [akyGetKey_of_null hcall hnull]

theorem Keeps.overflow {ks : IntKeys} (h : Keeps ks store) (hfull : ¬ store.Short op) :
    (LinkKeys.call ks op).1 = none := by
  obtain ⟨st, rfl, hst⟩ := h
  simp only [LinkKeys.call, Option.bind_some, hst.call_overflow hfull]

@[simp] theorem call_none (op : Op) : (LinkKeys.call (none : IntKeys) op).1 = none := rfl

theorem KeyStore.few_append (ks : KeyStore) (ops ops' : List Op) :
    ks.Few (ops ++ ops') ↔ ks.Few ops ∧ (ks.final ops).Few ops' := by
  induction ops generalizing ks with
  | nil => exact (and_iff_right trivial).symm
  | cons op ops ih =>
    rw [List.cons_append, Few, Few, ih, KeyStore.final, and_assoc]

theorem KeyStore.few_single (ks : KeyStore) (op : Op) : ks.Few [op] ↔ ks.Short op :=
  and_iff_left trivial

/-- Where an overflow is all that keeps the stores apart, whether there was one can be seen. -/
theorem Keeps.isSome_iff {ks : IntKeys} {few : Prop} (hfew : few → Keeps ks store)
    (hmany : ¬ few → ks = none) : ks.isSome = true ↔ few := by
  constructor
  · intro hsome
    by_contra hno
    rw [hmany hno] at hsome
    cases hsome
  · intro h
    obtain ⟨st, rfl, -⟩ := hfew h
    rfl

/-! ## What the store is -/

theorem exists_same {cs : List (CallOf IntDesc)} {cs' : List Call}
    (h : List.Forall₂ CallOf.Same cs cs') {c : CallOf IntDesc} (hc : c ∈ cs) :
    ∃ c' ∈ cs', c.Same c' := by
  induction h with
  | nil => cases hc
  | cons hsame _ ih =>
    rcases List.mem_cons.mp hc with rfl | hc
    · exact ⟨_, by simp, hsame⟩
    · obtain ⟨c', hc', hsame'⟩ := ih hc
      exact ⟨c', List.mem_cons_of_mem _ hc', hsame'⟩

theorem map_same {α : Type} {f : CallOf IntDesc → α} {g : Call → α}
    (hfg : ∀ c c', c.Same c' → f c = g c') {cs : List (CallOf IntDesc)} {cs' : List Call}
    (h : List.Forall₂ CallOf.Same cs cs') : cs.map f = cs'.map g := by
  induction h with
  | nil => rfl
  | cons hsame _ ih => rw [List.map_cons, List.map_cons, hfg _ _ hsame, ih]

/-- Calls that answer the same refine the same queues. -/
theorem Refines.of_same {ops : List Op} {cs : List (CallOf IntDesc)} {cs' : List Call}
    (hsame : List.Forall₂ CallOf.Same cs cs') (h : Refines ops cs') : Refines ops cs := by
  have hentry : cs.map CallOf.entry = cs'.map CallOf.entry :=
    map_same (fun c c' hcc => by rw [CallOf.entry, CallOf.entry, hcc.op, hcc.ans]) hsame
  refine ⟨(map_same (fun _ _ hcc => hcc.op) hsame).trans h.op, ?_, ?_, ?_, ?_, ?_⟩
  · rw [hentry]
    exact h.serves
  · intro c hc t ht
    obtain ⟨c', hc', hcc⟩ := exists_same hsame hc
    rw [hcc.ans]
    exact h.put c' hc' t (hcc.op ▸ ht)
  · intro c hc t ht hnull
    obtain ⟨c', hc', hcc⟩ := exists_same hsame hc
    rw [hcc.ans] at hnull ⊢
    rw [hcc.before, hcc.after]
    exact h.null c' hc' t (hcc.op ▸ ht) hnull
  · intro c hc t hft hne
    obtain ⟨c', hc', hcc⟩ := exists_same hsame hc
    rw [hcc.before, hcc.after]
    exact h.frame c' hc' t hft (hcc.op ▸ hne)
  · rw [hentry]
    exact h.distinct

/-- **The link-key store is a map of FIFO queues exactly if no queue ever holds `2 ^ 31` keys.** -/
theorem akyKeys_refine (ops : List Op) (hfits : ∀ op ∈ ops, op.triple.Fits) :
    (∃ cs : List (CallOf IntDesc), (akyKeyInit none).calls ops = some cs ∧ Refines ops cs) ↔
      Within (2 ^ 31) (fun _ => 0) (ops.map Op.req) := by
  have hinit : Counted (akyKeyInit none) (KeyStore.init none).1 := Counted.init none
  rw [← admitted_none [] (ops.map Op.req), ← KeyStore.few_init_iff none hfits]
  constructor
  · rintro ⟨cs, hcs, -⟩
    by_contra hmany
    rw [hinit.calls_overflow hmany] at hcs
    cases hcs
  · intro hfew
    obtain ⟨cs, hcs, hsame⟩ := hinit.calls hfew
    exact ⟨cs, hcs, (KeyStore.refines hfits).of_same hsame⟩

/-- A key is got back once, and then there is none. -/
theorem akyKeys_refine_once :
    ∃ cs : List (CallOf IntDesc), (akyKeyInit none).calls [.put ("ptp".toList, 0, 1),
        .get ("ptp".toList, 0, 1), .get ("ptp".toList, 0, 1)] = some cs ∧
      Serves Queues.empty (cs.map CallOf.entry) ∧ (allPushed (cs.map CallOf.entry)).Nodup := by
  obtain ⟨cs, hcs, h⟩ := (akyKeys_refine
    [.put ("ptp".toList, 0, 1), .get ("ptp".toList, 0, 1), .get ("ptp".toList, 0, 1)]
    (by
      intro op hop
      exact fits_of_length_le (by fin_cases hop <;> decide) _ _)).mpr (by decide)
  exact ⟨cs, hcs, h.serves, h.distinct (by decide)⟩

/-- `2 ^ 31` keys of one triple are too many. -/
theorem manyPuts_overflow :
    (akyKeyInit none : IntStore).calls
      (List.replicate (2 ^ 31) (.put ("ptp".toList, 0, 1))) = none := by
  obtain ⟨j, hj⟩ : ∃ j, j + 1 = 2 ^ 31 := ⟨2 ^ 31 - 1, by norm_num⟩
  have hinit : Counted (akyKeyInit none) (KeyStore.init none).1 := Counted.init none
  rw [← hj]
  refine hinit.calls_overflow fun hfew => ?_
  rw [KeyStore.few_init_iff none fun op hop => ?_, admitted_none, List.map_replicate] at hfew
  · have hlt := Within.replicate hfew
    omega
  · rw [List.eq_of_mem_replicate hop]
    exact fits_of_length_le (by decide) _ _

end Keys
end Akypuera

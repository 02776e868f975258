import Akypuera.Keys.Refine
import Akypuera.Lib.Bounded

/-!
# The store with a table of fixed size

`hcreate_r` makes a table for a fixed number of entries, and a put of a new triple into a full
table answers `NULL` and leaves the caller's buffer zeroed (`put_of_full`). So the store is a
family of queues of which only so many can be opened, and **its log, less the puts that came to
nothing, is one of FIFO queues on the requests that are admitted** (`kept_log`).

The keys themselves are told apart by what is printed into them, the two ranks and a counter
of the puts that succeeded: its `stamps`.
-/

set_option autoImplicit false

namespace Akypuera
namespace Keys

open CText Chain Search Fifo

/-- `AKY_KEY_TABLE_SIZE`. -/
def akyKeyTableSize : Nat := 1000

theorem hcreateSize_akyKeyTableSize : hcreateSize akyKeyTableSize = 1009 := hcreateSize_1000

/-! ## The table -/

/-- What a put that finds room does to the table: it has an entry for the triple afterwards. -/
theorem akyPutKey_hash {st st' : Store} {type : Str} {src dst : Int32} {n : Nat} {a : Answer}
    (h : akyPutKey st type src dst n = some (st', a))
    (hroom : room st (tableKey type src dst) = true) :
    (st'.hash.filled =
      if (st.hash.find (tableKey type src dst)).isSome then st.hash.filled
      else st.hash.filled + 1) ∧
    ∀ k, (st'.hash.find k).isSome =
      ((st.hash.find k).isSome || decide (k = tableKey type src dst)) := by
  have hset : ∀ (hash : HTab Str Desc) d' k,
      ((hash.set (tableKey type src dst) d').find k).isSome =
        ((hash.find k).isSome || decide (k = tableKey type src dst)) := by
    intro hash d' k
    by_cases heq : k = tableKey type src dst
    · subst heq; simp
    · rw [HTab.find_set_ne _ _ heq]; simp [heq]
  unfold akyPutKey at h
  cases hk : st.hash.find (tableKey type src dst) with
  | some d =>
    simp only [findOrEnter, hk, Option.bind_eq_bind, Option.bind_eq_some_iff] at h
    obtain ⟨d, -, ⟨heap, d'⟩, -, hres⟩ := h
    cases hres
    exact ⟨rfl, hset st.hash d'⟩
  | none =>
    have hfull : st.hash.full = false := by simpa [room, hk] using hroom
    simp only [findOrEnter, hk, empty_desc, HTab.enter_of_find_none Desc.empty hk, hfull, Bool.false_eq_true, if_false,
      Option.bind_eq_bind, Option.bind_eq_some_iff] at h
    obtain ⟨d, -, ⟨heap, d'⟩, -, hres⟩ := h
    cases hres
    refine ⟨rfl, fun k => (hset _ d' k).trans ?_⟩
    by_cases heq : k = tableKey type src dst
    · subst heq; simp
    · simp [HTab.find, heq]

/-- A get changes no entry but for what is behind it. -/
theorem akyGetKey_hash {st st' : Store} {type : Str} {src dst : Int32} {n : Nat} {a : Answer}
    (h : akyGetKey st type src dst n = some (st', a)) :
    st'.hash.filled = st.hash.filled ∧
      ∀ k, (st'.hash.find k).isSome = (st.hash.find k).isSome := by
  have hset : ∀ (d d' : Desc) k, st.hash.find (tableKey type src dst) = some d →
      ((st.hash.set (tableKey type src dst) d').find k).isSome = (st.hash.find k).isSome := by
    intro d d' k hd
    by_cases heq : k = tableKey type src dst
    · subst heq; simp [hd]
    · rw [HTab.find_set_ne _ _ heq]
  unfold akyGetKey at h
  cases hk : st.hash.find (tableKey type src dst) with
  | none =>
    simp only [hk, Option.some.injEq] at h
    cases h
    exact ⟨rfl, fun _ => rfl⟩
  | some d =>
    simp only [hk, Option.bind_eq_bind, Option.bind_eq_some_iff] at h
    obtain ⟨⟨heap, d', elem⟩, -, h⟩ := h
    cases elem with
    | none =>
      cases h
      exact ⟨rfl, fun k => hset d d' k hk⟩
    | some elem =>
      simp only [Option.bind_eq_some_iff] at h
      obtain ⟨e, -, h⟩ := h
      cases h
      exact ⟨rfl, fun k => hset d d' k hk⟩

/-- **Without an answer, a get leaves the store as it was.** -/
theorem akyGetKey_of_null {δ : Type} [Descriptor δ] {st st' : StoreOf δ} {type : Str} {src dst : Int32} {n : Nat} {a : Answer}
    (h : akyGetKey st type src dst n = some (st', a)) (hnull : a.nonNull = false) : st' = st := by
  unfold akyGetKey at h
  cases hk : st.hash.find (tableKey type src dst) with
  | none =>
    simp only [hk, Option.some.injEq] at h
    cases h
    rfl
  | some d =>
    simp only [hk, Option.bind_eq_bind, Option.bind_eq_some_iff] at h
    obtain ⟨⟨heap, d', elem⟩, hdequeue, h⟩ := h
    cases elem with
    | none =>
      obtain ⟨rfl, rfl⟩ := Descriptor.dequeue_none hdequeue
      cases h
      rw [HTab.set_of_find hk]
    | some elem =>
      simp only [Option.bind_eq_some_iff] at h
      obtain ⟨e, -, h⟩ := h
      cases h
      cases hnull

theorem KeyStore.get_of_null {ks : KeyStore} {t : Triple}
    (h : (ks.call (.get t)).2.nonNull = false) : (ks.call (.get t)).1 = ks :=
  Subtype.ext (akyGetKey_of_null (ks.call_val (.get t)) h)

/-- The triples that have an entry in a table for `cap` entries. -/
structure Opened (ks : KeyStore) (cap : Option Nat) (opened : List Triple) : Prop where
  size : ks.1.hash.size = cap
  filled : ks.1.hash.filled = opened.length
  mem : ∀ t : Triple, t.Fits → ((ks.1.hash.find t.tableKey).isSome = true ↔ t ∈ opened)

theorem opened_init (cap : Option Nat) : Opened (KeyStore.init cap) cap [] where
  size := rfl
  filled := rfl
  mem _ _ := by simp [KeyStore.init, akyKeyInit]

variable {ks : KeyStore} {cap : Option Nat} {opened : List Triple} {q : Queues Triple Str}

/-- **There is room for a triple that has an entry, and for a further one.** -/
theorem Opened.room_iff (h : Opened ks cap opened) {t : Triple} (hf : t.Fits) :
    room ks.1 t.tableKey = true ↔ t ∈ openedBy cap opened t := by
  rw [mem_openedBy, room, Bool.or_eq_true, h.mem t hf]
  have hspare : (!ks.1.hash.full) = spare cap opened := by
    rw [HTab.full, h.size, h.filled]
    cases cap with
    | none => rfl
    | some n => by_cases hn : n ≤ opened.length <;> simp [spare, hn]; omega
  rw [hspare]

/-- The triples with an entry after a call. -/
def Op.opens (cap : Option Nat) (opened : List Triple) : Op → List Triple
  | put t => openedBy cap opened t
  | get _ => opened

/-- One call and the entries of the table. -/
theorem Opened.call (h : Opened ks cap opened) {op : Op} (hf : op.triple.Fits) :
    Opened (ks.call op).1 cap (op.opens cap opened) := by
  have hcall := ks.call_val op
  have hsize : (ks.call op).1.1.hash.size = cap := (ks.call_spec op).size.trans h.size
  cases op with
  | get t =>
    obtain ⟨hfilled, hfind⟩ := akyGetKey_hash hcall
    exact ⟨hsize, hfilled.trans h.filled, fun t' hf' => by rw [hfind]; exact h.mem t' hf'⟩
  | put t =>
    have hf : t.Fits := hf
    cases hroom : room ks.1 t.tableKey with
    | false =>
      have hout : t ∉ openedBy cap opened t := by
        rw [← h.room_iff hf, hroom]
        simp
      obtain ⟨hsame, -⟩ := (ks.call_spec (.put t)).full t rfl hroom
      rw [Op.opens, openedBy_of_not_mem hout]
      exact ⟨hsize, by rw [hsame]; exact h.filled, fun t' hf' => by rw [hsame]; exact h.mem t' hf'⟩
    | true =>
      obtain ⟨hfilled, hfind⟩ := akyPutKey_hash hcall hroom
      have hmem := (h.room_iff hf).mp hroom
      have hold : (ks.1.hash.find (tableKey t.1 t.2.1 t.2.2)).isSome = true ↔ t ∈ opened :=
        h.mem t hf
      refine ⟨hsize, ?_, ?_⟩
      · rw [hfilled, h.filled]
        by_cases hin : t ∈ opened
        · simp [Op.opens, openedBy, hin, hold.mpr hin]
        · have hspare : spare cap opened = true := (mem_openedBy.mp hmem).resolve_left hin
          rw [if_neg fun hs => hin (hold.mp hs)]
          simp [Op.opens, openedBy, hin, hspare]
      · intro t' hf'
        rw [hfind, Bool.or_eq_true, h.mem t' hf', decide_eq_true_iff, Op.opens]
        constructor
        · rintro (hin | hkey)
          · exact subset_openedBy _ _ _ hin
          · rw [Triple.tableKey_inj hf' hf hkey]
            exact hmem
        · intro hin
          unfold openedBy at hin
          split at hin
          · exact Or.inl hin
          · split at hin
            · rcases List.mem_cons.mp hin with rfl | hin
              · exact Or.inr rfl
              · exact Or.inl hin
            · exact Or.inl hin

/-! ## The log -/

/-- The request a call makes. -/
def Op.req : Op → Req Triple
  | put t => .put t
  | get t => .take t

/-- A put that came to nothing: it left its caller with an empty key. -/
def refused {κ : Type} : Entry κ Str → Bool
  | .push _ [] => true
  | _ => false

/-- A log without these. -/
def kept {κ : Type} (l : List (Entry κ Str)) : List (Entry κ Str) := l.filter fun e => !refused e

theorem linkKey_ne_nil (src dst : Int32) (counter : UInt64) : linkKey src dst counter ≠ [] := by
  simp [linkKey]

/-- One call on the queues, where the table may be full. -/
theorem Opened.tracks_call (ho : Opened ks cap opened) (ht : ks.Tracks q) {t : Triple}
    (hf : t.Fits) (hmem : t ∈ openedBy cap opened t) :
    (ks.call (.put t)).1.Tracks (Function.update q t
      (q t ++ [linkKey t.2.1 t.2.2 ks.1.counter])) := by
  have hspec := (ks.call_spec (.put t)).put t rfl ((ho.room_iff hf).mpr hmem)
  intro t' hf'
  rw [hspec.queue]
  by_cases heq : t' = t
  · subst heq; simp [ht t' hf']
  · have hk : t'.tableKey ≠ t.tableKey := fun hk => heq (Triple.tableKey_inj hf' hf hk)
    simp [heq, hk, ht t' hf']

/-- What the keys of successive puts are made of: the ranks, and the counter, which starts at
    `c` and comes round after 2^64 puts. -/
def stampsFrom (c : UInt64) : List Triple → List (Int32 × Int32 × UInt64)
  | [] => []
  | t :: ts => (t.2.1, t.2.2, c) :: stampsFrom (c + 1) ts

/-- The text of a key. -/
def stampKey (s : Int32 × Int32 × UInt64) : Str := linkKey s.1 s.2.1 s.2.2

theorem stampKey_injective : Function.Injective stampKey := by
  rintro ⟨s, d, c⟩ ⟨s', d', c'⟩ h
  obtain ⟨rfl, rfl, rfl⟩ := linkKey_inj h
  rfl

/-- A put that is admitted stays in the log, with its key. -/
theorem Opened.kept_put (ho : Opened ks cap opened) {t : Triple} (hf : t.Fits)
    (hmem : t ∈ openedBy cap opened t) (ops : List Op) :
    kept (ks.log (.put t :: ops)) =
      .push t (linkKey t.2.1 t.2.2 ks.1.counter) :: kept ((ks.call (.put t)).1.log ops) ∧
      (ks.call (.put t)).1.1.counter = ks.1.counter + 1 := by
  have hspec := (ks.call_spec (.put t)).put t rfl ((ho.room_iff hf).mpr hmem)
  have hkeep : refused (.push t (linkKey t.2.1 t.2.2 ks.1.counter)) = false := by
    cases hkey : linkKey t.2.1 t.2.2 ks.1.counter with
    | nil => exact absurd hkey (linkKey_ne_nil _ _ _)
    | cons x xs => rfl
  refine ⟨?_, hspec.counter⟩
  rw [KeyStore.log, Op.entry, hspec.text, kept, List.filter_cons_of_pos (by simp [hkeep])]
  rfl

/-- A put that is not leaves the store as it was, and its caller with an empty key. -/
theorem Opened.log_refused (ho : Opened ks cap opened) {t : Triple} (hf : t.Fits)
    (hmem : t ∉ openedBy cap opened t) (ops : List Op) :
    ks.log (.put t :: ops) = .push t [] :: ks.log ops := by
  have hroom : room ks.1 t.tableKey = false := by
    rw [← ho.room_iff hf] at hmem
    simpa using hmem
  obtain ⟨hsame, hans⟩ := (ks.call_spec (.put t)).full t rfl hroom
  have hstore : (ks.call (.put t)).1 = ks := Subtype.ext hsame
  rw [KeyStore.log, Op.entry, hans, hstore, cstr_zeroed]

/-- **The log of a store is one of FIFO queues on the requests that are admitted**, and its
    keys are the texts of the stamps. -/
theorem Opened.kept_log (ho : Opened ks cap opened) (ht : ks.Tracks q) {ops : List Op}
    (hf : ∀ op ∈ ops, op.triple.Fits) :
    (kept (ks.log ops)).map Entry.req = admitted cap opened (ops.map Op.req) ∧
      Serves q (kept (ks.log ops)) ∧
      allPushed (kept (ks.log ops)) = (stampsFrom ks.1.counter
        (putKeys (admitted cap opened (ops.map Op.req)))).map stampKey := by
  induction ops generalizing ks opened q with
  | nil => exact ⟨rfl, trivial, rfl⟩
  | cons op ops ih =>
    have hrest : ∀ op' ∈ ops, op'.triple.Fits := fun op' h => hf op' (by simp [h])
    have hop : op.triple.Fits := hf op (by simp)
    have ho' := ho.call hop
    rw [List.map_cons]
    cases op with
    | put t =>
      have hop : t.Fits := hop
      by_cases hmem : t ∈ openedBy cap opened t
      · obtain ⟨hcons, hcounter⟩ := ho.kept_put hop hmem ops
        obtain ⟨hreq, hserves, hkeys⟩ := ih ho' (ho.tracks_call ht hop hmem) hrest
        rw [hcounter] at hkeys
        rw [hcons, Op.req, admitted, if_pos hmem]
        refine ⟨congrArg (Req.put t :: ·) hreq, ⟨trivial, hserves⟩, ?_⟩
        rw [allPushed, hkeys]
        rfl
      · have hcons : kept (ks.log (.put t :: ops)) = kept (ks.log ops) := by
          rw [ho.log_refused hop hmem, kept, List.filter_cons_of_neg (by simp [refused])]
          rfl
        rw [hcons, Op.req, admitted, if_neg hmem]
        exact ih ho ht hrest
    | get t =>
      have hop : t.Fits := hop
      have hspec := ks.get_spec t
      obtain ⟨hreq, hserves, hkeys⟩ := ih ho' (ht.get hop) hrest
      rw [hspec.counter] at hkeys
      exact ⟨congrArg (Req.take t :: ·) hreq, ⟨hspec.text.trans (by rw [ht t hop]), hserves⟩, hkeys⟩

/-- **Where no put is turned away**, all of the log is one of FIFO queues. -/
theorem log_of_admitted {cap : Option Nat} {ops : List Op} (hf : ∀ op ∈ ops, op.triple.Fits)
    (hadm : admitted cap [] (ops.map Op.req) = ops.map Op.req) :
    Serves Queues.empty ((KeyStore.init cap).log ops) ∧
      allPushed ((KeyStore.init cap).log ops) =
        (stampsFrom 0 (putKeys (ops.map Op.req))).map stampKey := by
  obtain ⟨hreq, hserves, hkeys⟩ := (opened_init cap).kept_log (KeyStore.tracks_init cap) hf
  have hlen := congrArg List.length (hreq.trans hadm)
  rw [List.length_map, List.length_map, ← KeyStore.length_log_ops (KeyStore.init cap) ops] at hlen
  have hkept : kept ((KeyStore.init cap).log ops) = (KeyStore.init cap).log ops :=
    List.filter_sublist.eq_of_length hlen
  rw [hkept] at hserves hkeys
  rw [hadm] at hkeys
  exact ⟨hserves, hkeys⟩

/-- Where there is enough, a get is answered. -/
theorem answered_of_enough {cap : Option Nat} {ops : List Op} {t : Triple}
    (hf : ∀ op ∈ ops ++ [Op.get t], op.triple.Fits)
    (he : Enough (admitted cap [] ((ops ++ [Op.get t]).map Op.req))) :
    (((KeyStore.init cap).final ops).call (.get t)).2.nonNull = true := by
  obtain ⟨hreq, hserves, -⟩ := (opened_init cap).kept_log (KeyStore.tracks_init cap) hf
  rw [← hreq] at he
  have hmem : .pop t (((KeyStore.init cap).final ops).call (.get t)).2.text ∈
      kept ((KeyStore.init cap).log (ops ++ [Op.get t])) := by
    rw [KeyStore.log_append]
    exact List.mem_filter.mpr ⟨List.mem_append_right _ (List.mem_singleton.mpr rfl), rfl⟩
  have hsome := hserves.isSome_of_enough he hmem
  by_contra hnull
  simp [Answer.text, hnull] at hsome

/-- What is answered was put. -/
theorem put_of_answered {cap : Option Nat} {ops : List Op} {t : Triple}
    (hf : ∀ op ∈ ops ++ [Op.get t], op.triple.Fits)
    (hans : (((KeyStore.init cap).final ops).call (.get t)).2.nonNull = true) : .put t ∈ ops := by
  have hserves := ((opened_init cap).kept_log (KeyStore.tracks_init cap) hf).2.1
  rw [KeyStore.log_append] at hserves
  simp only [kept, List.filter_append, KeyStore.log, List.filter_cons, Op.entry, refused,
    Answer.text, hans, if_true, Bool.not_false, List.filter_nil] at hserves
  have hlen := List.length_pos_of_mem hserves.pushed_before
  have hkept := ((opened_init cap).kept_log (KeyStore.tracks_init cap)
    fun op hop => hf op (List.mem_append_left _ hop)).1
  rw [length_pushed, List.count_pos_iff] at hlen
  have hput := (admitted_sublist _ _ _).subset (hkept ▸ hlen)
  obtain ⟨op, hop, hreq⟩ := List.mem_map.mp hput
  cases op with
  | put t' => cases hreq; exact hop
  | get t' => cases hreq

/-! ## Distinct keys -/

theorem mem_stampsFrom {c : UInt64} {ts : List Triple} {s : Int32 × Int32 × UInt64}
    (h : s ∈ stampsFrom c ts) : ∃ i, i < ts.length ∧ s.2.2 = c + UInt64.ofNat i := by
  induction ts generalizing c with
  | nil => exact absurd h (by simp [stampsFrom])
  | cons t ts ih =>
    rcases List.mem_cons.mp h with rfl | h
    · exact ⟨0, by simp, by simp⟩
    · obtain ⟨i, hi, heq⟩ := ih h
      refine ⟨i + 1, Nat.succ_lt_succ hi, ?_⟩
      rw [heq, UInt64.ofNat_add, UInt64.add_assoc, UInt64.add_comm 1]
      rfl

/-- **Stamps are distinct until the counter comes round.** -/
theorem nodup_stampsFrom (c : UInt64) {ts : List Triple} (h : ts.length ≤ 2 ^ 64) :
    (stampsFrom c ts).Nodup := by
  induction ts generalizing c with
  | nil => exact List.nodup_nil
  | cons t ts ih =>
    rw [List.length_cons] at h
    refine List.nodup_cons.mpr ⟨fun hmem => ?_, ih _ (by omega)⟩
    obtain ⟨i, hi, heq⟩ := mem_stampsFrom hmem
    have hc := congrArg UInt64.toNat heq
    simp only [UInt64.toNat_add, UInt64.toNat_ofNat'] at hc
    have hlt := c.toNat_lt
    have hone : (1 : UInt64).toNat = 1 := rfl
    omega

/-- The stamps of a fresh store. -/
def stamps (ts : List Triple) : List (Int32 × Int32 × UInt64) := stampsFrom 0 ts

end Keys
end Akypuera

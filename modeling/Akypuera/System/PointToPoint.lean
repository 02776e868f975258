import Akypuera.System.Collectives
import Akypuera.System.Receives

/-!
# Messages from one rank to another

Rank `s` sends, rank `d` receives from it, on `MPI_COMM_WORLD` and with one tag. MPI does not
let messages overtake: the receive that is posted `k`-th gets the message that is sent `k`-th.
Both records of a message can therefore be tagged with `k`.

What the library records is not the posting of a receive but its completion, so `d`'s tags
come in the order in which it completes its receives (`order`), while the converter hands out
keys in the order the messages were sent. **The receive that is recorded `j`-th gets the key of
the message sent `j`-th** (`p2p_inOrder`), which is its own message exactly when receives are
completed in the order they were posted.
-/

set_option autoImplicit false

namespace Akypuera
namespace System

open CText Code Converter Tracer Fifo
open Keys (Triple IntKeys)

/-! ## Numbering messages -/

/-- The records of a process, its messages numbered by `ks`. -/
def number : List Nat → List Record → List (Option Nat × Record)
  | _, [] => []
  | ks, r :: rs =>
      if (arm r.type).isLink then (ks.head?, r) :: number ks.tail rs
      else (none, r) :: number ks rs

theorem map_snd_number (ks : List Nat) (rs : List Record) :
    (number ks rs).map Prod.snd = rs := by
  induction rs generalizing ks with
  | nil => rfl
  | cons r rs ih =>
    unfold number
    split <;> exact congrArg (r :: ·) (ih _)

/-- What numbered messages ask for. -/
theorem recordRequests_number (id : UInt64) {ks : List Nat} {rs : List Record}
    (hlen : (linkRecords rs).length = ks.length) :
    recordRequests id (number ks rs) = (ks.zip (linkRecords rs)).flatMap fun x =>
      (individual (.ofRecord id 0 x.2)).map (some x.1, ·) := by
  induction rs generalizing ks with
  | nil =>
    have hks : ks = [] := List.eq_nil_of_length_eq_zero hlen.symm
    rw [hks]
    rfl
  | cons r rs ih =>
    by_cases hlink : (arm r.type).isLink = true
    · have hcons : linkRecords (r :: rs) = r :: linkRecords rs :=
        List.filter_cons_of_pos (by simpa using hlink)
      rw [hcons] at hlen ⊢
      cases ks with
      | nil => exact absurd hlen (by simp)
      | cons k ks =>
        have ih := @ih ks (by simpa using hlen)
        rw [number, if_pos hlink, List.zip_cons_cons, List.flatMap_cons, ← ih]
        rfl
    · have hcons : linkRecords (r :: rs) = linkRecords rs :=
        List.filter_cons_of_neg (by simpa using hlink)
      have hplain : (arm r.type).isLink = false := by simpa using hlink
      have hnone : individual (.ofRecord id 0 r) = [] := individual_eq_nil hplain
      rw [hcons] at hlen ⊢
      rw [number, if_neg hlink, ← ih hlen]
      simp [recordRequests, hnone]

/-! ## The two programs -/

/-- A send from `s` to `d`: its kind, count and size of datatype, and the variable it puts its
    request into, if it has one. -/
def sendTo (n s d : Nat) (x : SendKind × Int32 × Int32 × Ptr) : Op :=
  .send x.1 { comm := worldComm n s, dest := .ofNat d, count := x.2.1, tsize := x.2.2.1 } x.2.2.2

/-- An operation that posts receives from `s`, or completes receives. -/
def Op.ReceivesFrom (n s d : Nat) : Op → Prop
  | .recv comm _ _ source => comm = worldComm n d ∧ source = some (.ofNat s)
  | .irecv _ _ source _ => source = some (.ofNat s)
  | .wait _ _ | .waitall _ _ _ | .waitany _ _ _ => True
  | _ => False

/-- The receives of a program in the order they are recorded, by the order they are posted
    in. -/
def order (mpi : Mpi) (ops : List Op) : List Nat :=
  (history mpi ops).flatMap fun s => (s.op.named mpi s.before).map Prod.fst

/-- The streams of the two ranks, each message with its number. -/
def p2pStreams (mpi : Mpi) (n s d : Nat) (sends : List (SendKind × Int32 × Int32 × Ptr))
    (ops : List Op) (r : Nat) : List (Option Nat × Record) :=
  if r = s then
    number (List.range sends.length) (stream (calls mpi Proc.init (sends.map (sendTo n s d))))
  else if r = d then number (order mpi ops) (stream (calls mpi Proc.init ops))
  else []

/-- The message records of a process are those of its calls. -/
theorem linkRecords_stream (mpi : Mpi) (ops : List Op) :
    linkRecords (stream (calls mpi Proc.init ops)) =
      (history mpi ops).flatMap fun s => s.op.messages mpi s.before := by
  have hinit : linkRecords mpiInitRecords = [] := by decide +kernel
  have hfinal : linkRecords mpiFinalize.records = [] := by decide +kernel
  have happend : ∀ rs rs', linkRecords (rs ++ rs') = linkRecords rs ++ linkRecords rs' :=
    fun rs rs' => List.filter_append rs rs'
  rw [stream, happend, happend, hinit, hfinal, List.append_nil, List.nil_append, ← run_records]
  show ((history mpi ops).map Step.records).flatten.filter _ = _
  rw [List.filter_flatten, List.map_map, ← List.flatMap_def]
  exact List.flatMap_congr fun s hs => run_messages agrees_init s hs

/-- Messages that all ask for the same. -/
theorem recordRequests_const {id : UInt64} {ks : List Nat} {rs : List Record} {q : Req Link}
    (hlen : (linkRecords rs).length = ks.length)
    (hq : ∀ r ∈ linkRecords rs, individual (.ofRecord id 0 r) = [q]) :
    recordRequests id (number ks rs) = ks.map fun k => (some k, q) := by
  rw [recordRequests_number id hlen]
  calc (ks.zip (linkRecords rs)).flatMap (fun x => (individual (.ofRecord id 0 x.2)).map (some x.1, ·))
      = (ks.zip (linkRecords rs)).flatMap fun x => [(some x.1, q)] := by
        apply List.flatMap_congr
        intro x hx
        rw [hq x.2 (List.of_mem_zip hx).2]
        rfl
    _ = ((ks.zip (linkRecords rs)).map Prod.fst).map fun k => (some k, q) := by
        rw [List.map_map, List.map_eq_flatMap]
        rfl
    _ = ks.map fun k => (some k, q) := by rw [List.map_fst_zip (le_of_eq hlen.symm)]

section
variable {n s d : Nat} {mpi : Mpi} (hn : n < 2 ^ 31) (hs : s < n) (hd : d < n)
include hn

/-- The link of every message. -/
def p2pLink (s d : Nat) : Link := (.ptp, .ofNat s, .ofNat d)

include hd in
/-- What the sender's records ask for. -/
theorem requests_sender (sends : List (SendKind × Int32 × Int32 × Ptr)) :
    recordRequests (.ofNat s) (number (List.range sends.length)
        (stream (calls mpi Proc.init (sends.map (sendTo n s d))))) =
      (List.range sends.length).map fun i => (some i, .put (p2pLink s d)) := by
  have hmessages : ∀ step ∈ history mpi (sends.map (sendTo n s d)), ∃ bytes mark,
      step.op.messages mpi step.before =
        [rstEventIil akyPtpSend (Int32.ofNat d).toUInt32 bytes mark] := by
    intro step hstep
    obtain ⟨x, _, hx⟩ := List.mem_map.mp (op_mem_of_run step hstep)
    exact ⟨_, _, by rw [← hx]; rfl⟩
  refine recordRequests_const ?_ fun r hr => ?_
  · rw [linkRecords_stream, List.length_flatMap, List.length_range]
    have hone : (history mpi (sends.map (sendTo n s d))).map
        (fun step => (step.op.messages mpi step.before).length) =
          (history mpi (sends.map (sendTo n s d))).map fun _ => 1 := by
      apply List.map_congr_left
      intro step hstep
      obtain ⟨bytes, mark, hm⟩ := hmessages step hstep
      rw [hm]
      rfl
    rw [hone]
    simp [length_history]
  · rw [linkRecords_stream] at hr
    obtain ⟨step, hstep, hr⟩ := List.mem_flatMap.mp hr
    obtain ⟨bytes, mark, hm⟩ := hmessages step hstep
    rw [hm, List.mem_singleton] at hr
    rw [hr, individual_ptpSend, toUInt64_ofNat (Nat.lt_trans hd hn)]
    rfl

omit hn

/-- Every noted variable holds a receive from `s`. -/
structure Proc.From (s : Nat) (st : Proc) : Prop where
  noted : ∀ p, st.noted p = true → (st.real p).isSome
  source : ∀ p k source, st.held p = .receive k source → source = some (.ofNat s)

theorem from_wait {st : Proc} (h : st.From s) (requests : List Ptr) :
    ((st.complete requests).look requests).From s := by
  refine ⟨?_, ?_⟩
  · intro p hp
    by_cases hm : p ∈ requests
    · simp [Proc.look, hm] at hp
    · have hreal := h.noted p (by simpa [Proc.look, Proc.complete, hm] using hp)
      simpa [Proc.real, Proc.look, Proc.complete, hm] using hreal
  · intro p k source hp
    by_cases hm : p ∈ requests
    · simp [Proc.look, Proc.complete, hm] at hp
    · exact h.source p k source (by simpa [Proc.look, Proc.complete, hm] using hp)

/-- **The receiver's variables stay in order.** -/
theorem from_step {st : Proc} (h : st.From s) {op : Op} (hop : op.ReceivesFrom n s d) :
    (op.step mpi st).From s := by
  cases op with
  | recv comm count tsize source => exact ⟨h.noted, h.source⟩
  | irecv count tsize source request =>
    have hsource : source = some (.ofNat s) := hop
    subst hsource
    refine ⟨?_, ?_⟩
    · intro p hp
      by_cases hpr : p = request
      · simp [Op.step, Proc.real, Proc.post, Proc.receive, hpr]
      · have hreal := h.noted p (by simpa [Op.step, Proc.post, Proc.receive, hpr] using hp)
        simpa [Op.step, Proc.real, Proc.post, Proc.receive, hpr] using hreal
    · intro p k source hheld
      by_cases hpr : p = request
      · subst hpr
        simp only [Op.step, Proc.post, Proc.receive, Function.update_self,
          Held.receive.injEq] at hheld
        exact hheld.2.symm
      · refine h.source p k source ?_
        simpa [Op.step, Proc.post, Proc.receive, hpr] using hheld
  | wait request blank =>
    have hwait := from_wait h [request]
    exact ⟨hwait.noted, hwait.source⟩
  | waitall base count blank =>
    rw [step_waitall]
    exact from_wait h _
  | waitany base index blank => exact from_wait h [base + index.toInt]
  | _ => exact absurd hop (by simp [Op.ReceivesFrom])

/-- Its operations are clear. -/
theorem clear_of_from {st : Proc} (h : st.From s) {op : Op} (hop : op.ReceivesFrom n s d) :
    op.Clear mpi st := by
  cases op with
  | recv comm count tsize source => exact fun hnone => by simp [hop.2] at hnone
  | irecv | wait | waitall | waitany => exact fun x _ hx => h.noted x.1 hx
  | _ => exact absurd hop (by simp [Op.ReceivesFrom])

/-- What they record comes from `s`. -/
theorem shown_of_from {st : Proc} (h : st.From s) {op : Op} (hop : op.ReceivesFrom n s d) :
    ∀ m ∈ op.named mpi st, op.shown m.2 = .ofNat s := by
  have hreal : ∀ ps : List Ptr, ∀ m ∈ ps.filterMap st.real, m.2 = .ofNat s := by
    rintro ps ⟨k, source⟩ hm
    obtain ⟨p, _, hp⟩ := List.mem_filterMap.mp hm
    exact Option.some.inj (h.source p k (some source) (held_of_real hp))
  intro m hm
  cases op with
  | recv comm count tsize source =>
    obtain ⟨rfl, rfl⟩ := hop
    rw [Op.named, Option.map_some, Option.toList_some, List.mem_singleton] at hm
    rw [hm]
    rfl
  | irecv | wait | waitall | waitany => exact hreal _ m hm
  | _ => exact absurd hop (by simp [Op.ReceivesFrom])

variable {ops : List Op} (hops : ∀ op ∈ ops, op.ReceivesFrom n s d)
include hops

theorem from_history : ∀ step ∈ history mpi ops, step.before.From s :=
  run_invariant ⟨fun p h => absurd h (by simp [Proc.init]),
    fun p k source h => absurd h (by simp [Proc.init])⟩
    fun _ h op hop => from_step h (hops op hop)

theorem clear_history : ∀ step ∈ history mpi ops, step.op.Clear mpi step.before :=
  fun step hstep => clear_of_from (from_history hops step hstep)
    (hops step.op (op_mem_of_run step hstep))

/-- What the receiver's records are: one for each receive, in their order. -/
theorem linkRecords_receiver : linkRecords (stream (calls mpi Proc.init ops)) =
    (order mpi ops).map fun _ => rstEventI akyPtpRecv (Int32.ofNat s).toUInt32 := by
  rw [linkRecords_stream, order, List.map_flatMap]
  apply List.flatMap_congr
  intro step hstep
  have hop := hops step.op (op_mem_of_run step hstep)
  have hfrom := from_history hops step hstep
  rw [messages_named step.op (clear_of_from hfrom hop)
    (by rintro kind s request heq; rw [heq] at hop; exact hop), List.map_map]
  exact List.map_congr_left fun m hm => by rw [shown_of_from hfrom hop m hm]; rfl

theorem nodup_order : (order mpi ops).Nodup := nodup_named (clear_history hops)

include hn hs in
/-- What they ask for. -/
theorem requests_receiver :
    recordRequests (.ofNat d) (number (order mpi ops) (stream (calls mpi Proc.init ops))) =
      (order mpi ops).map fun k => (some k, .take (p2pLink s d)) := by
  have hrecords : linkRecords (stream (calls mpi Proc.init ops)) = _ :=
    linkRecords_receiver hops
  apply recordRequests_const (by rw [hrecords, List.length_map])
  intro r hr
  rw [hrecords] at hr
  obtain ⟨_, _, rfl⟩ := List.mem_map.mp hr
  rw [individual_ptpRecv, toUInt64_ofNat (Nat.lt_trans hs hn)]
  rfl

end

/-! ## The links of the messages -/

section
variable {n s d : Nat} {mpi : Mpi} {sends : List (SendKind × Int32 × Int32 × Ptr)} {ops : List Op}
  {tes : List (Option Nat × Event)}
variable (hn : n < 2 ^ 31) (hs : s < n) (hd : d < n) (hsd : s ≠ d)
  (hops : ∀ op ∈ ops, op.ReceivesFrom n s d)
  (hmerge : TaggedMerge n (p2pStreams mpi n s d sends ops) tes)

/-- Everything in them is from a process. -/
theorem mem_p2pStreams (r : Nat) :
    ∀ x ∈ p2pStreams mpi n s d sends ops r, ∃ cs, x.2 ∈ stream cs := by
  have hmem : ∀ (ks : List Nat) (cs : List Call), ∀ x ∈ number ks (stream cs),
      ∃ cs, x.2 ∈ stream cs := by
    intro ks cs x hx
    have hx := List.mem_map_of_mem (f := Prod.snd) hx
    rw [map_snd_number] at hx
    exact ⟨cs, hx⟩
  unfold p2pStreams
  split
  · exact hmem _ _
  · split
    · exact hmem _ _
    · exact fun x hx => absurd hx (by simp)

theorem hasPeer_p2p (r : Nat) : ∀ x ∈ p2pStreams mpi n s d sends ops r, HasPeer x.2 := by
  intro x hx
  obtain ⟨cs, hx⟩ := mem_p2pStreams r x hx
  exact stream_hasPeer cs x.2 hx

include hn hs hd hmerge in
/-- What the sender puts in. -/
theorem filed_sender : filed (ofRankTagged tes s) =
    ((List.range sends.length).map some).map fun t => (t, .put (p2pLink s d).triple) := by
  rw [filed_ofRank hmerge hs (hasPeer_p2p s), p2pStreams, if_pos rfl, requests_sender hn hd,
    List.map_map, List.map_map]
  rfl

include hn hs hd hsd hops hmerge in
/-- What the receiver takes out. -/
theorem filed_receiver : filed (ofRankTagged tes d) =
    ((order mpi ops).map some).map fun t => (t, .take (p2pLink s d).triple) := by
  rw [filed_ofRank hmerge hd (hasPeer_p2p d), p2pStreams, if_neg hsd.symm, if_pos rfl,
    requests_receiver hn hs hops, List.map_map, List.map_map]
  rfl

include hn hs hd hsd hops hmerge in
/-- Nothing else is filed. -/
theorem filed_key : ∀ x ∈ filed tes,
    x.2 = .put (p2pLink s d).triple ∨ x.2 = .take (p2pLink s d).triple := by
  intro x hx
  -- it is filed for an event of some rank
  obtain ⟨te, hte, hx⟩ : ∃ te ∈ tes, x ∈ filed [te] := by
    rw [filed, requests, List.map_flatMap] at hx
    obtain ⟨te, hte, hx⟩ := List.mem_flatMap.mp hx
    exact ⟨te, hte, by simpa [filed, requests] using hx⟩
  have hown : x ∈ filed (ofRankTagged tes te.2.id1.toNat) := by
    have hmem : te ∈ ofRankTagged tes te.2.id1.toNat := List.mem_filter.mpr ⟨hte, by simp⟩
    obtain ⟨pre, post, heq⟩ := List.append_of_mem hmem
    rw [heq, filed, requests, List.flatMap_append, List.flatMap_cons, List.map_append,
      List.map_append]
    refine List.mem_append_right _ (List.mem_append_left _ ?_)
    simpa [filed, requests] using hx
  by_cases hrs : te.2.id1.toNat = s
  · rw [hrs, filed_sender hn hs hd hmerge] at hown
    obtain ⟨t, _, rfl⟩ := List.mem_map.mp hown
    exact .inl rfl
  · by_cases hrd : te.2.id1.toNat = d
    · rw [hrd, filed_receiver hn hs hd hsd hops hmerge] at hown
      obtain ⟨t, _, rfl⟩ := List.mem_map.mp hown
      exact .inr rfl
    · have hnone := hmerge.streams _ (hmerge.ranks te hte)
      rw [p2pStreams, if_neg hrs, if_neg hrd, List.forall₂_nil_left_iff] at hnone
      rw [hnone] at hown
      exact absurd hown (by simp [filed, requests])

include hn hs hd hsd hops hmerge in
/-- The tags of the sends are in the order of the sends, those of the receives are not. -/
theorem tags_p2p : putTags (p2pLink s d).triple (filed tes) = (List.range sends.length).map some ∧
    takeTags (p2pLink s d).triple (filed tes) = (order mpi ops).map some := by
  have hid : ∀ te ∈ tes, te.2.id1.toNat < 2 ^ 32 := fun te hte =>
    Nat.lt_trans (hmerge.ranks te hte) (by omega)
  constructor
  · have hsrc : rankOf (p2pLink s d).triple.2.1 = s := rankOf_ofNat (Nat.lt_trans hs hn)
    rw [putTags_filed hid, hsrc, filed_sender hn hs hd hmerge, putTags_own]
  · have hdst : rankOf (p2pLink s d).triple.2.2 = d := rankOf_ofNat (Nat.lt_trans hd hn)
    rw [takeTags_filed hid, hdst, filed_receiver hn hs hd hsd hops hmerge, takeTags_own]

include hn hs hd hsd hops hmerge in
/-- What is received was sent before. -/
theorem sent_p2p (hsent : ∀ k ∈ order mpi ops, k < sends.length) (hfirst : SendsFirst tes) :
    Sent (filed tes) := by
  obtain ⟨hput, htake⟩ := tags_p2p hn hs hd hsd hops hmerge
  have hkey := filed_key hn hs hd hsd hops hmerge
  have hother : ∀ k, k ≠ (p2pLink s d).triple → takeTags k (filed tes) = [] := by
    refine fun k hk => takeTags_eq_nil fun x hx htake => hk ?_
    rcases hkey x hx with h | h
    · exact absurd (h.symm.trans htake) (by simp)
    · exact (Req.take.inj (h.symm.trans htake)).symm
  refine ⟨?_, ?_, hfirst.causal⟩
  · intro k
    by_cases hk : k = (p2pLink s d).triple
    · subst hk
      rw [hput, htake]
      exact List.map_subset some fun k hk => List.mem_range.mpr (hsent k hk)
    · rw [hother k hk]
      exact List.nil_subset _
  · intro k
    by_cases hk : k = (p2pLink s d).triple
    · subst hk
      rw [htake]
      exact (nodup_order hops).map (Option.some_injective Nat)
    · rw [hother k hk]
      exact List.nodup_nil

end

/-! ## Which receive gets which key -/

/-- Every receive has the key of the message with its number. -/
def Own (keys : List Str) (ends : List (Option Nat × Str × Str)) : Prop :=
  ∀ k c key, (some k, c, key) ∈ ends → keys[k]? = some key

theorem own_of_range (count : Nat) (keys : List Str) (c : Str) :
    Own keys (((List.range count).zip keys).map fun x => (some x.1, c, x.2)) := by
  intro k c' key hend
  obtain ⟨⟨k', key'⟩, hmem, heq⟩ := List.mem_map.mp hend
  simp only [Prod.mk.injEq, Option.some.injEq] at heq
  obtain ⟨rfl, _, rfl⟩ := heq
  obtain ⟨j, hj⟩ := List.mem_iff_getElem?.mp hmem
  obtain ⟨hx, hkey⟩ := List.getElem?_zip_eq_some.mp hj
  obtain ⟨hlt, rfl⟩ := List.getElem?_eq_some_iff.mp hx
  rwa [List.getElem_range]

/-- With distinct keys, only receives in the order of the messages have their own. -/
theorem range_of_own {xs : List Nat} {keys : List Str} {c : Str} (hlen : xs.length ≤ keys.length)
    (hkeys : keys.Nodup) (h : Own keys ((xs.zip keys).map fun x => (some x.1, c, x.2))) :
    xs = List.range xs.length := by
  apply List.ext_getElem (by simp)
  intro j hj _
  have hzip : (xs[j], keys[j]) ∈ xs.zip keys :=
    List.mem_iff_getElem.mpr ⟨j, by simp; omega, by simp⟩
  have hkey := h xs[j] c keys[j] (List.mem_map.mpr ⟨_, hzip, rfl⟩)
  obtain ⟨hlt, heq⟩ := List.getElem?_eq_some_iff.mp hkey
  rw [List.getElem_range]
  exact hkeys.getElem_inj_iff.mp heq

theorem zip_range_eq_zipIdx (keys : List Str) :
    ((List.range keys.length).map some).zip keys = keys.zipIdx.map fun x => (some x.2, x.1) := by
  apply List.ext_getElem (by simp)
  intro j _ _
  simp

/-- Every event passes, and no receive comes too early. -/
theorem enough_p2p {n s d : Nat} (hn : n < 2 ^ 31) (hs : s < n) (hd : d < n) (hsd : s ≠ d)
    (mpi : Mpi) (sends : List (SendKind × Int32 × Int32 × Ptr)) (ops : List Op)
    (hops : ∀ op ∈ ops, op.ReceivesFrom n s d) (hsent : ∀ k ∈ order mpi ops, k < sends.length)
    (args : Arguments) {tes : List (Option Nat × Event)}
    (hmerge : TaggedMerge n (p2pStreams mpi n s d sends ops) tes) (hfirst : SendsFirst tes) :
    (∀ e ∈ tes.map Prod.snd, passes args e = true) ∧ Enough (filedReqs (tes.map Prod.snd)) := by
  refine ⟨fun e he => ?_, ?_⟩
  · obtain ⟨record, hrecord, hdecodes⟩ := hmerge.merged.mem he
    obtain ⟨x, hx, rfl⟩ := List.mem_map.mp hrecord
    obtain ⟨cs, hx⟩ := mem_p2pStreams _ x hx
    exact passes_of_sound (stream_sound cs x.2 hx) hdecodes
  · rw [← map_snd_filed]
    exact (sent_p2p hn hs hd hsd hops hmerge hsent hfirst).enough

/-- What the links are, without an end to the counts. -/
theorem p2p_shown {n s d : Nat} (hn : n < 2 ^ 31) (hs : s < n) (hd : d < n) (hsd : s ≠ d)
    (mpi : Mpi) (sends : List (SendKind × Int32 × Int32 × Ptr)) (ops : List Op)
    (hops : ∀ op ∈ ops, op.ReceivesFrom n s d) (hsent : ∀ k ∈ order mpi ops, k < sends.length)
    {args : Arguments} (hl : args.noLinks = false) {tes : List (Option Nat × Event)}
    (hmerge : TaggedMerge n (p2pStreams mpi n s d sends ops) tes) (hfirst : SendsFirst tes) :
    let r := convert args none (tes.map Prod.snd)
    r.rounds.map Prod.fst = tes.map Prod.snd ∧ r.died = false ∧ r.reports = [] ∧
      ∃ keys : List Str, keys.length = sends.length ∧
        r.starts (tes.map Prod.fst) =
          keys.zipIdx.map (fun x => (some x.2, mpiProcess (.ofNat s), x.1)) ∧
        r.ends (tes.map Prod.fst) = ((order mpi ops).zip keys).map
          (fun x => (some x.1, mpiProcess (.ofNat d), x.2)) ∧
        (order mpi ops = List.range (order mpi ops).length →
          Own keys (r.ends (tes.map Prod.fst))) ∧
        (sends.length ≤ 2 ^ 64 → Own keys (r.ends (tes.map Prod.fst)) →
          order mpi ops = List.range (order mpi ops).length) := by
  intro r
  obtain ⟨hpass, henough⟩ := enough_p2p hn hs hd hsd mpi sends ops hops hsent args hmerge hfirst
  have hid : ∀ te ∈ tes, te.2.id1.toNat < 2 ^ 32 := fun te hte =>
    Nat.lt_trans (hmerge.ranks te hte) (by omega)
  obtain ⟨hput, htake⟩ := tags_p2p hn hs hd hsd hops hmerge
  have hkey := filed_key hn hs hd hsd hops hmerge
  have hfault : Faultless (tes.map Prod.snd) r := faultless henough hl hpass
  obtain ⟨keys, hlen, hstarts, hends, hkeys⟩ := hfault.shown_key hid henough hkey
  rw [hput, List.length_map, List.length_range] at hlen
  have hlt : ∀ r < n, (UInt64.ofNat r).toNat < 2 ^ 32 := fun r hr => by simp; omega
  have hsrc : process (p2pLink s d).triple.2.1 = mpiProcess (.ofNat s) := process_toInt (hlt s hs)
  have hdst : process (p2pLink s d).triple.2.2 = mpiProcess (.ofNat d) := process_toInt (hlt d hd)
  rw [hput, hsrc, ← hlen, zip_range_eq_zipIdx, List.map_map] at hstarts
  rw [htake, hdst, List.zip_map_left, List.map_map] at hends
  have hends' : r.ends (tes.map Prod.fst) = ((order mpi ops).zip keys).map
      (fun x => (some x.1, mpiProcess (.ofNat d), x.2)) := hends
  have hle : (order mpi ops).length ≤ keys.length := by
    rw [hlen, ← List.length_range (n := sends.length)]
    exact ((nodup_order hops).subperm fun k hk => List.mem_range.mpr (hsent k hk)).length_le
  refine ⟨hfault.rounds, hfault.died, hfault.quiet, keys, hlen, hstarts, hends', ?_, ?_⟩
  · intro hrange
    rw [hends', hrange]
    exact own_of_range _ keys _
  · intro hbound hown
    rw [hends'] at hown
    exact range_of_own hle (hkeys (by omega)) hown

/-- **The receive that is recorded `j`-th gets the key of the message sent `j`-th.** Over any
    merge in which no receive comes before its own send, and as long as fewer than `2 ^ 31` messages
    are under way at any time (no `int` overflows then, and only then), every event is converted
    without a report, the `k`-th `StartLink` is that of message `k`, and the `EndLink`s take the same
    keys in the order in which the receives are completed. So a receive has the key of its own
    message when the receives are completed in the order they are posted in, and, as long as
    keys do not repeat, only then. -/
theorem p2p_inOrder {n s d : Nat} (hn : n < 2 ^ 31) (hs : s < n) (hd : d < n) (hsd : s ≠ d)
    (mpi : Mpi) (sends : List (SendKind × Int32 × Int32 × Ptr)) (ops : List Op)
    (hops : ∀ op ∈ ops, op.ReceivesFrom n s d) (hsent : ∀ k ∈ order mpi ops, k < sends.length)
    {args : Arguments} (hl : args.noLinks = false) {tes : List (Option Nat × Event)}
    (hmerge : TaggedMerge n (p2pStreams mpi n s d sends ops) tes) (hfirst : SendsFirst tes) :
    let r := convertOn IntKeys args none (tes.map Prod.snd)
    (r.Defined ↔ Within (2 ^ 31) (fun _ => 0) (filedReqs (tes.map Prod.snd))) ∧
    (r.Defined → r.rounds.map Prod.fst = tes.map Prod.snd ∧ r.died = false ∧ r.reports = [] ∧
        ∃ keys : List Str, keys.length = sends.length ∧
          r.starts (tes.map Prod.fst) =
            keys.zipIdx.map (fun x => (some x.2, mpiProcess (.ofNat s), x.1)) ∧
          r.ends (tes.map Prod.fst) = ((order mpi ops).zip keys).map
            (fun x => (some x.1, mpiProcess (.ofNat d), x.2)) ∧
          (order mpi ops = List.range (order mpi ops).length →
            Own keys (r.ends (tes.map Prod.fst))) ∧
          (sends.length ≤ 2 ^ 64 → Own keys (r.ends (tes.map Prod.fst)) →
            order mpi ops = List.range (order mpi ops).length)) := by
  intro r
  obtain ⟨hpass, henough⟩ := enough_p2p hn hs hd hsd mpi sends ops hops hsent args hmerge hfirst
  have hdefined := convertOn_defined args none (tes.map Prod.snd)
  refine ⟨hdefined.trans (fewWaiting_of_all hl hpass henough), fun hr => ?_⟩
  obtain ⟨hrounds, hdied, houts⟩ := convertOn_same (hdefined.mp hr)
  rw [starts_congr hrounds, ends_congr hrounds, reports_congr houts, hrounds, hdied]
  exact p2p_shown hn hs hd hsd mpi sends ops hops hsent hl hmerge hfirst

/-- Two messages of one integer. -/
def twoSends : List (SendKind × Int32 × Int32 × Ptr) := [(.send, 1, 4, 0), (.isend, 1, 4, 0)]

/-- Two receives that are waited for in the order they are posted in. -/
def twoWaits : List Op :=
  [.irecv 1 4 (some 0) 0, .irecv 1 4 (some 0) 1, .wait 0 fun _ => 0, .wait 1 fun _ => 0]

/-- The same two, waited for in the other order. -/
def twoWaitsSwapped : List Op :=
  [.irecv 1 4 (some 0) 0, .irecv 1 4 (some 0) 1, .wait 1 fun _ => 0, .wait 0 fun _ => 0]

/-- Rank 0 is through before rank 1 starts. -/
def twoMerge (ops : List Op) : List (Option Nat × UInt64 × ℚ × Record) :=
  ((p2pStreams mpich 2 0 1 twoSends ops 0).map fun x => (x.1, 0, 0, x.2)) ++
    (p2pStreams mpich 2 0 1 twoSends ops 1).map fun x => (x.1, 1, 1, x.2)

theorem p2p_inOrder_twoWaits :
    let r := convertOn IntKeys ⟨false, false, false⟩ none ((taggedEvents (twoMerge twoWaits)).map Prod.snd)
    ∃ keys, keys.length = 2 ∧ Own keys (r.ends ((taggedEvents (twoMerge twoWaits)).map Prod.fst)) := by
  have hops : ∀ op ∈ twoWaits, op.ReceivesFrom 2 0 1 := by
    intro op hop
    simp only [twoWaits, List.mem_cons, List.not_mem_nil, or_false] at hop
    rcases hop with rfl | rfl | rfl | rfl <;> trivial
  have hmerge : TaggedMerge 2 (p2pStreams mpich 2 0 1 twoSends twoWaits)
      (taggedEvents (twoMerge twoWaits)) :=
    taggedMerge_events (by decide +kernel) (by decide +kernel)
  obtain ⟨hdefined, hlinks⟩ :=
    @p2p_inOrder 2 0 1 (by decide) (by decide) (by decide) (by decide) mpich twoSends twoWaits
      hops (by decide +kernel) ⟨false, false, false⟩ rfl _ hmerge (by decide +kernel)
  obtain ⟨_, _, _, keys, hlen, _, _, hown, _⟩ := hlinks (hdefined.mpr (by decide +kernel))
  exact ⟨keys, hlen, hown (by decide +kernel)⟩

/-- The receive that is completed first gets the key of the other one's message. -/
theorem p2p_outOfOrder :
    (∀ op ∈ twoWaitsSwapped, op.ReceivesFrom 2 0 1) ∧
      TaggedMerge 2 (p2pStreams mpich 2 0 1 twoSends twoWaitsSwapped)
        (taggedEvents (twoMerge twoWaitsSwapped)) ∧
      SendsFirst (taggedEvents (twoMerge twoWaitsSwapped)) ∧
      let tes := taggedEvents (twoMerge twoWaitsSwapped)
      let r := convertOn IntKeys ⟨false, false, false⟩ none (tes.map Prod.snd)
      ¬ ∃ keys : List Str,
        r.starts (tes.map Prod.fst) =
            keys.zipIdx.map (fun x => (some x.2, mpiProcess (.ofNat 0), x.1)) ∧
          Own keys (r.ends (tes.map Prod.fst)) := by
  refine ⟨?_, taggedMerge_events (by decide +kernel) (by decide +kernel), by decide +kernel, ?_⟩
  · intro op hop
    simp only [twoWaitsSwapped, List.mem_cons, List.not_mem_nil, or_false] at hop
    rcases hop with rfl | rfl | rfl | rfl <;> trivial
  · rintro tes r ⟨keys, hstarts, hown⟩
    have hkeys : keys = (r.starts (tes.map Prod.fst)).map fun x => x.2.2 := by
      rw [hstarts, List.map_map]
      exact (List.zipIdx_map_fst 0 keys).symm
    have hfirst : r.starts (tes.map Prod.fst) =
        [(some 0, ['r', 'a', 'n', 'k', '0'], ['0', '_', '1', '_', '0']),
          (some 1, ['r', 'a', 'n', 'k', '0'], ['0', '_', '1', '_', '1'])] := by decide +kernel
    have hend : (some 1, ['r', 'a', 'n', 'k', '1'], ['0', '_', '1', '_', '0']) ∈
        r.ends (tes.map Prod.fst) := by decide +kernel
    have hkey := hown 1 _ _ hend
    rw [hkeys, hfirst] at hkey
    exact absurd hkey (by decide)

end System
end Akypuera

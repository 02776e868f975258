import Akypuera.System.Tagged

/-!
# Collectives on `MPI_COMM_WORLD`

A collective call is made by every rank, and what it moves are messages between the root and
each other rank. No rank records the call's identity: a rank records its own side of its own
messages, and the converter files them by ranks and kind. Still **each link joins the two ends
of one message of one call** (`collectives_linked`).

The argument is one observation. Under a triple, the sends are those of one rank, in the order
it made its calls, and the receives are those of one rank, in the order it made *its* calls;
and both ranks made the same calls in the same order. So both sides list the same calls
(`Collective.tags`), whatever the roots are and whichever kinds share a triple.
-/

set_option autoImplicit false

namespace Akypuera
namespace System

open Code Converter Tracer Fifo
open Keys (Triple IntKeys)

/-- The collectives that are linked. -/
inductive CollectiveKind where
  | scatter
  | bcast
  | gather
  | reduce
  deriving DecidableEq

/-- One collective call of the ranks below `n`. Counts and datatypes are each rank's own. -/
structure Collective (n : Nat) where
  kind : CollectiveKind
  root : Fin n
  count : Nat → Int32
  tsize : Nat → Int32

/-- `MPI_COMM_WORLD`, as rank `r` sees it. -/
def worldComm (n r : Nat) : Comm := { rank := .ofNat r, size := .ofNat n, world := id }

/-- The family its messages are linked in. -/
def CollectiveKind.family : CollectiveKind → Family
  | scatter => .oneToN
  | bcast => .oneToA
  | gather => .nToOne
  | reduce => .aToOne

/-- Whether its messages go from the root to the others, or to the root from them. -/
def CollectiveKind.down : CollectiveKind → Bool
  | scatter | bcast => true
  | gather | reduce => false

/-- The call of a member of a communicator. -/
def CollectiveKind.call (comm : Comm) (count tsize root : Int32) : CollectiveKind → Call
  | scatter => .scatter comm count tsize root
  | bcast => .bcast comm count tsize root
  | gather => .gather comm count root
  | reduce => .reduce comm count tsize root

namespace Collective

variable {n : Nat}

/-- The call rank `r` makes. -/
def call (c : Collective n) (r : Nat) : Call :=
  c.kind.call (worldComm n r) (c.count r) (c.tsize r) (.ofNat c.root)

/-- The other ranks. -/
def others (c : Collective n) : List Nat := (List.range n).filter (· ≠ c.root)

/-- The messages of the call, as pairs of ranks. -/
def messages (c : Collective n) : List (Nat × Nat) :=
  if c.kind.down then c.others.map fun r => (c.root.1, r) else c.others.map fun r => (r, c.root.1)

/-- The link of a message. -/
def link (c : Collective n) (m : Nat × Nat) : Link := (c.kind.family, .ofNat m.1, .ofNat m.2)

theorem lt_of_mem_messages (c : Collective n) {m : Nat × Nat} (h : m ∈ c.messages) :
    m.1 < n ∧ m.2 < n := by
  have hother : ∀ r ∈ c.others, r < n := by
    intro r hr
    exact List.mem_range.mp (List.mem_filter.mp hr).1
  unfold messages at h
  split at h
  · obtain ⟨r, hr, rfl⟩ := List.mem_map.mp h
    exact ⟨c.root.2, hother r hr⟩
  · obtain ⟨r, hr, rfl⟩ := List.mem_map.mp h
    exact ⟨hother r hr, c.root.2⟩

theorem nodup_messages (c : Collective n) : c.messages.Nodup := by
  have hnodup : c.others.Nodup := List.nodup_range.filter _
  unfold messages
  split
  all_goals exact hnodup.map fun a b h => by simpa using h

end Collective

/-! ## What the records of a call ask for -/

theorem toUInt64_ofNat {n : Nat} (h : n < 2 ^ 31) :
    (Int32.ofNat n).toUInt32.toUInt64 = UInt64.ofNat n := by
  apply UInt64.toNat_inj.mp
  simp
  omega

theorem ofNat_inj {n m : Nat} (hn : n < 2 ^ 31) (hm : m < 2 ^ 31)
    (h : Int32.ofNat n = Int32.ofNat m) : n = m := by
  have h64 : UInt64.ofNat n = UInt64.ofNat m := by
    rw [← toUInt64_ofNat hn, ← toUInt64_ofNat hm, h]
  have hnat := congrArg UInt64.toNat h64
  simp at hnat
  omega

theorem operations_cons (id : UInt64) (r : Record) (rs : List Record) :
    operations id (r :: rs) = individual (.ofRecord id 0 r) ++ operations id rs := rfl

/-- A call that records one message. -/
theorem operations_one {id : UInt64} {opening message closing : Record}
    (hin : (arm opening.type).isLink = false) (hout : (arm closing.type).isLink = false) :
    operations id [opening, message, closing] = individual (.ofRecord id 0 message) := by
  have hopen : individual (.ofRecord id 0 opening) = [] := individual_eq_nil hin
  have hclose : individual (.ofRecord id 0 closing) = [] := individual_eq_nil hout
  rw [operations_cons, operations_cons, operations_cons, hopen, hclose]
  exact List.append_nil _

theorem individual_ptpSend (id : UInt64) (i0 i1 : UInt32) (l0 : UInt64) :
    individual (.ofRecord id 0 (rstEventIil akyPtpSend i0 i1 l0)) =
      [.put (.ptp, id, i0.toUInt64)] := by
  have harm : arm akyPtpSend = .ptpSend := by decide +kernel
  simp [individual, Event.ofRecord, rstEventIil, harm]

theorem individual_ptpRecv (id : UInt64) (i0 : UInt32) :
    individual (.ofRecord id 0 (rstEventI akyPtpRecv i0)) = [.take (.ptp, i0.toUInt64, id)] := by
  have harm : arm akyPtpRecv = .ptpRecv := by decide +kernel
  simp [individual, Event.ofRecord, rstEventI, harm]

section
variable {type : Nat} {f : Family} {id : UInt64}

theorem individual_xt1Send (h : arm type = .xt1Send f) (i0 i1 : UInt32) (l0 : UInt64) :
    individual (.ofRecord id 0 (rstEventIil type i0 i1 l0)) = [.put (f, id, i0.toUInt64)] := by
  simp [individual, Event.ofRecord, rstEventIil, h]

theorem individual_oneTxRecv (h : arm type = .oneTxRecv f) (i0 : UInt32) :
    individual (.ofRecord id 0 (rstEventI type i0)) = [.take (f, i0.toUInt64, id)] := by
  simp [individual, Event.ofRecord, rstEventI, h]

/-- The ranks the converter loops over are the others. -/
theorem others_ofNat {β : Type} {n r : Nat} (hn : n < 2 ^ 31) (hr : r < 2 ^ 31) (g : UInt64 → β)
    (e : Event) (hid : e.id1 = .ofNat r) (hpeer : e.vUint32 0 = (Int32.ofNat n).toUInt32) :
    (others e).map (fun rank => g rank.toUInt64) =
      ((List.range n).filter (· ≠ r)).map fun s => g (.ofNat s) := by
  have hsize : (Int32.ofNat n).toUInt32.toNat = n := by
    simp
    omega
  have hrank : ∀ s < n, (UInt32.ofNat s).toUInt64 = UInt64.ofNat s := by
    intro s hs
    apply UInt64.toNat_inj.mp
    simp
    omega
  rw [others, hpeer, hid, ranksBelow, hsize, List.filter_map, List.map_map]
  have hfilter : (List.range n).filter
      ((fun rank => decide (UInt32.toUInt64 rank ≠ .ofNat r)) ∘ UInt32.ofNat) =
        (List.range n).filter (· ≠ r) := by
    apply List.filter_congr
    intro s hs
    have hs := List.mem_range.mp hs
    simp only [Function.comp, hrank s hs, decide_eq_decide]
    refine not_congr ⟨fun h => ?_, fun h => by rw [h]⟩
    have hnat := congrArg UInt64.toNat h
    simp at hnat
    omega
  rw [hfilter]
  apply List.map_congr_left
  intro s hs
  have hs := List.mem_range.mp (List.mem_filter.mp hs).1
  simp [hrank s hs]

variable {n r : Nat} (hn : n < 2 ^ 31) (hr : r < 2 ^ 31)
include hn hr

theorem individual_oneTxSend (h : arm type = .oneTxSend f) (i1 : UInt32) (l0 : UInt64) :
    individual (.ofRecord (.ofNat r) 0 (rstEventIil type (Int32.ofNat n).toUInt32 i1 l0)) =
      ((List.range n).filter (· ≠ r)).map fun s => .put (f, .ofNat r, .ofNat s) := by
  rw [← others_ofNat hn hr (fun s => Req.put (f, UInt64.ofNat r, s))
    (.ofRecord (.ofNat r) 0 (rstEventIil type (Int32.ofNat n).toUInt32 i1 l0)) rfl rfl]
  simp [individual, Event.ofRecord, rstEventIil, h]

theorem individual_xt1Recv (h : arm type = .xt1Recv f) :
    individual (.ofRecord (.ofNat r) 0 (rstEventI type (Int32.ofNat n).toUInt32)) =
      ((List.range n).filter (· ≠ r)).map fun s => .take (f, .ofNat s, .ofNat r) := by
  rw [← others_ofNat hn hr (fun s => Req.take (f, s, UInt64.ofNat r))
    (.ofRecord (.ofNat r) 0 (rstEventI type (Int32.ofNat n).toUInt32)) rfl rfl]
  simp [individual, Event.ofRecord, rstEventI, h]

end

theorem plain_brackets : ∀ type ∈ [mpiScatterIn, mpiScatterOut, mpiBcastIn, mpiBcastOut,
    mpiGatherIn, mpiGatherOut, mpiReduceIn, mpiReduceOut], (arm type).isLink = false := by
  decide +kernel

/-- The call of a root that sends. -/
theorem operations_down {id : UInt64} {b : Prop} [Decidable b]
    {opening opening' send recv closing : Record}
    (hin : (arm opening.type).isLink = false) (hin' : (arm opening'.type).isLink = false)
    (hout : (arm closing.type).isLink = false) :
    operations id ((if b then [opening, send] else [opening']) ++ (if ¬ b then [recv] else []) ++
        [closing]) =
      if b then individual (.ofRecord id 0 send) else individual (.ofRecord id 0 recv) := by
  by_cases hb : b
  · simp only [hb, not_true, if_true, if_false, List.append_nil]
    exact operations_one hin hout
  · simp only [hb, not_false_iff, if_true, if_false]
    exact operations_one hin' hout

/-- The call of a root that receives. -/
theorem operations_up {id : UInt64} {b : Prop} [Decidable b]
    {opening opening' send recv closing : Record}
    (hin : (arm opening.type).isLink = false) (hin' : (arm opening'.type).isLink = false)
    (hout : (arm closing.type).isLink = false) :
    operations id ((if b then [opening] else [opening', send]) ++ (if b then [recv] else []) ++
        [closing]) =
      if b then individual (.ofRecord id 0 recv) else individual (.ofRecord id 0 send) := by
  by_cases hb : b
  · simp only [hb, if_true]
    exact operations_one hin hout
  · simp only [hb, if_false, List.append_nil]
    exact operations_one hin' hout

/-- What the record of a member asks for, who is `id` in the world, where the root is `w`. The
    root goes through as many ranks as the communicator has, less its own. -/
def CollectiveKind.ends (kind : CollectiveKind) (size id w : Nat) (isRoot : Prop)
    [Decidable isRoot] : List (Req Link) :=
  if isRoot then
    if kind.down then
      ((List.range size).filter (· ≠ id)).map fun s => .put (kind.family, .ofNat id, .ofNat s)
    else ((List.range size).filter (· ≠ id)).map fun s => .take (kind.family, .ofNat s, .ofNat id)
  else if kind.down then [.take (kind.family, .ofNat w, .ofNat id)]
  else [.put (kind.family, .ofNat id, .ofNat w)]

section
variable {comm : Comm} {size id i root w : Nat} (hsize : comm.size = .ofNat size)
  (hrank : comm.rank = .ofNat i) (hworld : comm.world (.ofNat root) = .ofNat w)
  (hn : size < 2 ^ 31) (hi : i < 2 ^ 31) (hr : root < 2 ^ 31) (hid : id < 2 ^ 31) (hw : w < 2 ^ 31)
include hsize hrank hworld hn hi hr hid hw

/-- **What a member of a communicator records of a collective.** -/
theorem operations_member (kind : CollectiveKind) (count tsize : Int32) (tr : Library) :
    operations (.ofNat id) ((kind.call comm count tsize (.ofNat root)).run tr).1 =
      kind.ends size id w (i = root) := by
  have heq : (Int32.ofNat i = Int32.ofNat root) ↔ i = root :=
    ⟨ofNat_inj hi hr, fun h => by rw [h]⟩
  have hpeer := toUInt64_ofNat hw
  have hplain := plain_brackets
  simp only [List.forall_mem_cons] at hplain
  obtain ⟨hsi, hso, hbi, hbo, hgi, hgo, hri, hro, _⟩ := hplain
  cases kind with
  | scatter =>
    have hsend : arm aky1tnSend = .oneTxSend .oneToN := by decide +kernel
    have hrecv : arm aky1tnRecv = .oneTxRecv .oneToN := by decide +kernel
    simp only [CollectiveKind.call, Call.run, mpiScatter, hrank, hsize, heq, ne_eq]
    refine (operations_down hsi hsi hso).trans ?_
    rw [individual_oneTxSend hn hid hsend, individual_oneTxRecv hrecv, akyTranslateRank, hworld,
      hpeer]
    rfl
  | bcast =>
    have hsend : arm aky1taSend = .oneTxSend .oneToA := by decide +kernel
    have hrecv : arm aky1taRecv = .oneTxRecv .oneToA := by decide +kernel
    simp only [CollectiveKind.call, Call.run, mpiBcast, hrank, hsize, heq, ne_eq]
    refine (operations_down hbi hbi hbo).trans ?_
    rw [individual_oneTxSend hn hid hsend, individual_oneTxRecv hrecv, akyTranslateRank, hworld,
      hpeer]
    rfl
  | gather =>
    have hsend : arm akyNt1Send = .xt1Send .nToOne := by decide +kernel
    have hrecv : arm akyNt1Recv = .xt1Recv .nToOne := by decide +kernel
    simp only [CollectiveKind.call, Call.run, mpiGather, hrank, hsize, heq]
    refine (operations_up hgi hgi hgo).trans ?_
    rw [individual_xt1Recv hn hid hrecv, individual_xt1Send hsend, akyTranslateRank, hworld, hpeer]
    rfl
  | reduce =>
    have hsend : arm akyAt1Send = .xt1Send .aToOne := by decide +kernel
    have hrecv : arm akyAt1Recv = .xt1Recv .aToOne := by decide +kernel
    simp only [CollectiveKind.call, Call.run, mpiReduce, hrank, hsize, heq]
    refine (operations_up hri hri hro).trans ?_
    rw [individual_xt1Recv hn hid hrecv, individual_xt1Send hsend, akyTranslateRank, hworld, hpeer]
    rfl

end

/-! ## The two sides of a call -/

namespace Collective

variable {n : Nat} (c : Collective n) {r : Nat}

/-- The individual operations of rank `r` in a call: its ends of the call's messages. -/
def sides (r : Nat) : List (Req Link) :=
  (c.messages.filter fun m => m.1 = r).map (fun m => .put (c.link m)) ++
    (c.messages.filter fun m => m.2 = r).map (fun m => .take (c.link m))

theorem filter_others (hr : r < n) (hroot : r ≠ c.root) :
    c.others.filter (fun s => s = r) = [r] := by
  rw [others, List.filter_filter]
  have hone : (List.range n).filter (fun s => decide (s = r) && decide (s ≠ c.root)) =
      (List.range n).filter (fun s => s == r) := by
    apply List.filter_congr
    intro s _
    by_cases hs : s = r
    · simp [hs, hroot]
    · simp [hs]
  rw [hone, List.filter_beq, List.count_eq_one_of_mem List.nodup_range (List.mem_range.mpr hr)]
  rfl

theorem filter_others_root : c.others.filter (fun s => s = c.root.1) = [] := by
  apply List.filter_eq_nil_iff.mpr
  intro s hs
  simpa using (List.mem_filter.mp hs).2

/-- From the root to the others. -/
theorem sides_down (hm : c.messages = c.others.map fun s => (c.root.1, s)) (hr : r < n) :
    c.sides r =
      if r = c.root then
        ((List.range n).filter (· ≠ r)).map fun s => .put (c.kind.family, .ofNat r, .ofNat s)
      else [.take (c.kind.family, .ofNat c.root, .ofNat r)] := by
  unfold sides
  rw [hm, List.filter_map, List.filter_map]
  by_cases hroot : r = c.root
  · have hnone : c.others.filter ((fun m : Nat × Nat => decide (m.2 = r)) ∘
        fun s => (c.root.1, s)) = [] := by
      rw [hroot]
      exact c.filter_others_root
    rw [if_pos hroot, hnone]
    simp [Function.comp_def, hroot, others, link]
  · have hone : c.others.filter ((fun m : Nat × Nat => decide (m.2 = r)) ∘
        fun s => (c.root.1, s)) = [r] := c.filter_others hr hroot
    have hne : ¬ c.root.1 = r := fun h => hroot h.symm
    rw [if_neg hroot, hone]
    simp [Function.comp_def, hne, link]

/-- From the others to the root. -/
theorem sides_up (hm : c.messages = c.others.map fun s => (s, c.root.1)) (hr : r < n) :
    c.sides r =
      if r = c.root then
        ((List.range n).filter (· ≠ r)).map fun s => .take (c.kind.family, .ofNat s, .ofNat r)
      else [.put (c.kind.family, .ofNat r, .ofNat c.root)] := by
  unfold sides
  rw [hm, List.filter_map, List.filter_map]
  by_cases hroot : r = c.root
  · have hnone : c.others.filter ((fun m : Nat × Nat => decide (m.1 = r)) ∘
        fun s => (s, c.root.1)) = [] := by
      rw [hroot]
      exact c.filter_others_root
    rw [if_pos hroot, hnone]
    simp [Function.comp_def, hroot, others, link]
  · have hone : c.others.filter ((fun m : Nat × Nat => decide (m.1 = r)) ∘
        fun s => (s, c.root.1)) = [r] := c.filter_others hr hroot
    have hne : ¬ c.root.1 = r := fun h => hroot h.symm
    rw [if_neg hroot, hone]
    simp [Function.comp_def, hne, link]

/-- **A rank records its ends of the call's messages.** -/
theorem operations_call (hn : n < 2 ^ 31) (hr : r < n) (tr : Library) :
    operations (.ofNat r) ((c.call r).run tr).1 = c.sides r := by
  have hr31 : r < 2 ^ 31 := Nat.lt_trans hr hn
  have hroot31 : c.root.1 < 2 ^ 31 := Nat.lt_trans c.root.2 hn
  have hworld : (worldComm n r).world (.ofNat c.root.1) = .ofNat c.root.1 := rfl
  rw [call, operations_member rfl rfl hworld hn hr31 hroot31 hr31 hroot31, CollectiveKind.ends]
  cases hdown : c.kind.down with
  | true =>
    rw [c.sides_down (if_pos hdown) hr]
    rfl
  | false =>
    rw [c.sides_up (if_neg (by simp [hdown])) hr]
    rfl

/-- The triple its message is filed under names its two ranks. -/
theorem rankOf_link (hn : n < 2 ^ 31) {m : Nat × Nat} (hm : m ∈ c.messages) :
    rankOf (Link.triple (c.link m)).2.1 = m.1 ∧ rankOf (Link.triple (c.link m)).2.2 = m.2 := by
  have hlt := c.lt_of_mem_messages hm
  exact ⟨rankOf_ofNat (Nat.lt_trans hlt.1 hn), rankOf_ofNat (Nat.lt_trans hlt.2 hn)⟩

/-! ## Both sides of a triple -/

/-- The calls that have a message under a triple, in the order they are made. -/
def tags (k : Triple) (colls : List (Collective n)) : List (Option Nat) :=
  colls.zipIdx.flatMap fun x =>
    (x.1.messages.filter fun m => Link.triple (x.1.link m) = k).map fun _ => some x.2

theorem putTags_sides (hn : n < 2 ^ 31) (k : Triple) (t : Option Nat) :
    putTags k ((c.sides (rankOf k.2.1)).map fun q => (t, q.rekey Link.triple)) =
      (c.messages.filter fun m => Link.triple (c.link m) = k).map fun _ => t := by
  have htakes : putTags k ((c.messages.filter fun m => m.2 = rankOf k.2.1).map
      fun m => (t, Req.take (Link.triple (c.link m)))) = [] := by
    apply putTags_eq_nil
    intro x hx
    obtain ⟨m, _, rfl⟩ := List.mem_map.mp hx
    simp
  have hputs := putTags_puts k (fun m => Link.triple (c.link m)) t
    (c.messages.filter fun m => m.1 = rankOf k.2.1)
  rw [sides, List.map_append, List.map_map, List.map_map, putTags_append]
  simp only [Function.comp_def, Req.rekey]
  rw [htakes, hputs, List.append_nil, List.filter_filter]
  congr 1
  apply List.filter_congr
  intro m hm
  by_cases hk : Link.triple (c.link m) = k
  · simp [← hk, (c.rankOf_link hn hm).1]
  · simp [hk]

theorem takeTags_sides (hn : n < 2 ^ 31) (k : Triple) (t : Option Nat) :
    takeTags k ((c.sides (rankOf k.2.2)).map fun q => (t, q.rekey Link.triple)) =
      (c.messages.filter fun m => Link.triple (c.link m) = k).map fun _ => t := by
  have hputs : takeTags k ((c.messages.filter fun m => m.1 = rankOf k.2.2).map
      fun m => (t, Req.put (Link.triple (c.link m)))) = [] := by
    apply takeTags_eq_nil
    intro x hx
    obtain ⟨m, _, rfl⟩ := List.mem_map.mp hx
    simp
  have htakes := takeTags_takes k (fun m => Link.triple (c.link m)) t
    (c.messages.filter fun m => m.2 = rankOf k.2.2)
  rw [sides, List.map_append, List.map_map, List.map_map, takeTags_append]
  simp only [Function.comp_def, Req.rekey]
  rw [hputs, htakes, List.nil_append, List.filter_filter]
  congr 1
  apply List.filter_congr
  intro m hm
  by_cases hk : Link.triple (c.link m) = k
  · simp [← hk, (c.rankOf_link hn hm).2]
  · simp [hk]

/-- A call has at most one message under a triple. -/
theorem nodup_tags (hn : n < 2 ^ 31) (k : Triple) (colls : List (Collective n)) :
    (tags k colls).Nodup := by
  unfold tags
  rw [List.nodup_flatMap]
  refine ⟨?_, ?_⟩
  · intro x _
    refine List.Nodup.map_on ?_ (x.1.nodup_messages.filter _)
    intro m hm m' hm' _
    obtain ⟨hm, hk⟩ := List.mem_filter.mp hm
    obtain ⟨hm', hk'⟩ := List.mem_filter.mp hm'
    have hsame : Link.triple (x.1.link m) = Link.triple (x.1.link m') := by
      rw [of_decide_eq_true hk, of_decide_eq_true hk']
    have hr := x.1.rankOf_link hn hm
    have hr' := x.1.rankOf_link hn hm'
    rw [hsame] at hr
    exact Prod.ext (hr.1.symm.trans hr'.1) (hr.2.symm.trans hr'.2)
  · have hidx : (colls.zipIdx.map Prod.snd).Nodup := by
      rw [List.zipIdx_map_snd]
      exact List.nodup_range'
    refine (List.pairwise_map.mp hidx).imp fun {x y} hne => ?_
    intro t hx hy
    obtain ⟨_, _, rfl⟩ := List.mem_map.mp hx
    obtain ⟨_, _, heq⟩ := List.mem_map.mp hy
    exact hne (Option.some.inj heq).symm

/-- Collectives leave the library's data alone. -/
theorem runCalls_call (colls : List (Collective n)) (r : Nat) (tr : Library) :
    runCalls tr (colls.map fun c => c.call r) = colls.map fun c => ((c.call r).run tr).1 := by
  induction colls with
  | nil => rfl
  | cons c colls ih =>
    have hsame : ((c.call r).run tr).2 = tr := by
      unfold call
      cases c.kind <;> rfl
    rw [List.map_cons, runCalls, hsame, ih, List.map_cons]

variable {colls : List (Collective n)} {tes : List (Option Nat × Event)}

/-- What a rank's events ask for, call by call. -/
theorem filed_calls (hn : n < 2 ^ 31)
    (hmerge : TaggedMerge n (fun r => callStream (colls.map fun c => c.call r)) tes)
    (hr : r < n) : filed (ofRankTagged tes r) = colls.zipIdx.flatMap fun x =>
      (x.1.sides r).map fun q => (some x.2, q.rekey Link.triple) := by
  have hpeer : ∀ x ∈ callStream (colls.map fun c => c.call r), HasPeer x.2 := by
    intro x hx
    refine stream_hasPeer (colls.map fun c => c.call r) x.2 ?_
    rw [← map_snd_callStream]
    exact List.mem_map_of_mem hx
  rw [filed_ofRank hmerge hr hpeer, recordRequests_callStream, runCalls_call, List.zipIdx_map,
    List.flatMap_map, List.map_flatMap]
  apply List.flatMap_congr
  intro x _
  simp [operations_call x.1 hn hr Library.init]

/-- Messages are between ranks. -/
theorem tags_eq_nil (hn : n < 2 ^ 31) {k : Triple}
    (h : ¬ (rankOf k.2.1 < n ∧ rankOf k.2.2 < n)) : tags k colls = [] := by
  apply List.flatMap_eq_nil_iff.mpr
  intro x _
  rw [List.map_eq_nil_iff, List.filter_eq_nil_iff]
  intro m hm hk
  have hk : Link.triple (x.1.link m) = k := of_decide_eq_true hk
  have hr := x.1.rankOf_link hn hm
  have hlt := x.1.lt_of_mem_messages hm
  rw [hk] at hr
  exact h ⟨hr.1 ▸ hlt.1, hr.2 ▸ hlt.2⟩

section
variable (hn : n < 2 ^ 31)
  (hmerge : TaggedMerge n (fun r => callStream (colls.map fun c => c.call r)) tes)
include hn hmerge

theorem putTags_eq (k : Triple) : putTags k (filed tes) = tags k colls := by
  have hid : ∀ te ∈ tes, te.2.id1.toNat < 2 ^ 32 := fun te hte =>
    Nat.lt_trans (hmerge.ranks te hte) (by omega)
  rw [putTags_filed hid]
  by_cases hr : rankOf k.2.1 < n
  · rw [filed_calls hn hmerge hr, putTags_flatMap, tags]
    exact List.flatMap_congr fun x _ => x.1.putTags_sides hn k (some x.2)
  · rw [hmerge.ofRank_eq_nil hr, tags_eq_nil hn fun h => hr h.1]
    rfl

theorem takeTags_eq (k : Triple) : takeTags k (filed tes) = tags k colls := by
  have hid : ∀ te ∈ tes, te.2.id1.toNat < 2 ^ 32 := fun te hte =>
    Nat.lt_trans (hmerge.ranks te hte) (by omega)
  rw [takeTags_filed hid]
  by_cases hr : rankOf k.2.2 < n
  · rw [filed_calls hn hmerge hr, takeTags_flatMap, tags]
    exact List.flatMap_congr fun x _ => x.1.takeTags_sides hn k (some x.2)
  · rw [hmerge.ofRank_eq_nil hr, tags_eq_nil hn fun h => hr h.2]
    rfl

/-- **Both sides of every triple list the same calls**, so nothing is received too early. -/
theorem enough (hfirst : SendsFirst tes) : Enough (filedReqs (tes.map Prod.snd)) := by
  have hsent : Sent (filed tes) :=
    { sent := fun k => by rw [takeTags_eq hn hmerge, putTags_eq hn hmerge]; exact fun _ h => h
      nodup := fun k => by rw [takeTags_eq hn hmerge]; exact nodup_tags hn k colls
      causal := hfirst.causal }
  rw [← map_snd_filed]
  exact hsent.enough

end

end Collective

/-! ## The links -/

/-- A link of the trace: the call it belongs to, the two ranks, and its key. -/
structure CallLink where
  call : Nat
  src : Nat
  dst : Nat
  key : CText.Str

theorem process_rankOf (i : Int32) : process i = mpiProcess (.ofNat (rankOf i)) := by
  rw [process, rankOf, ← UInt32.toNat_toUInt64, UInt64.ofNat_toNat]

/-- The messages of all calls, each with the number of its call. -/
def allMessages {n : Nat} (colls : List (Collective n)) : List (Nat × Nat × Nat) :=
  colls.zipIdx.flatMap fun x => x.1.messages.map fun p => (x.2, p.1, p.2)

/-- The same, as they are filed. -/
def filedMessages {n : Nat} (colls : List (Collective n)) : List (Option Nat × Triple) :=
  colls.zipIdx.flatMap fun x => x.1.messages.map fun p => (some x.2, Link.triple (x.1.link p))

theorem tags_filedMessages {n : Nat} (k : Triple) (colls : List (Collective n)) :
    ((filedMessages colls).filter fun x => x.2 = k).map Prod.fst = Collective.tags k colls := by
  rw [filedMessages, Collective.tags, List.filter_flatMap, List.map_flatMap]
  apply List.flatMap_congr
  intro x _
  rw [List.filter_map, List.map_map]
  rfl

/-- A message is read off the triple it is filed under. -/
theorem map_filedMessages {n : Nat} (hn : n < 2 ^ 31) (colls : List (Collective n)) :
    ((filedMessages colls).map fun x => (x.1.getD 0, rankOf x.2.2.1, rankOf x.2.2.2)) =
      allMessages colls := by
  rw [filedMessages, allMessages, List.map_flatMap]
  apply List.flatMap_congr
  intro x _
  rw [List.map_map]
  apply List.map_congr_left
  intro p hp
  have hr := x.1.rankOf_link hn hp
  simp [hr.1, hr.2]

/-- Every event passes, and no receive comes too early. -/
theorem passes_enough {n : Nat} (hn : n < 2 ^ 31) (colls : List (Collective n)) (args : Arguments)
    {tes : List (Option Nat × Event)}
    (hmerge : TaggedMerge n (fun r => callStream (colls.map fun c => c.call r)) tes)
    (hfirst : SendsFirst tes) :
    (∀ e ∈ tes.map Prod.snd, passes args e = true) ∧ Enough (filedReqs (tes.map Prod.snd)) := by
  refine ⟨fun e he => ?_, Collective.enough hn hmerge hfirst⟩
  obtain ⟨record, hrecord, hd⟩ := hmerge.merged.mem he
  rw [map_snd_callStream] at hrecord
  exact passes_of_sound (stream_sound _ record hrecord) hd

/-- What the links are, without an end to the counts. -/
theorem collectives_shown {n : Nat} (hn : n < 2 ^ 31) (colls : List (Collective n))
    {args : Arguments} (hl : args.noLinks = false) {tes : List (Option Nat × Event)}
    (hmerge : TaggedMerge n (fun r => callStream (colls.map fun c => c.call r)) tes)
    (hfirst : SendsFirst tes) :
    let r := convert args none (tes.map Prod.snd)
    r.rounds.map Prod.fst = tes.map Prod.snd ∧ r.died = false ∧ r.reports = [] ∧
      ∃ ms : List CallLink,
        r.starts (tes.map Prod.fst) =
          ms.map (fun m => (some m.call, mpiProcess (.ofNat m.src), m.key)) ∧
        (r.ends (tes.map Prod.fst)).Perm
          (ms.map fun m => (some m.call, mpiProcess (.ofNat m.dst), m.key)) ∧
        (ms.map fun m => (m.call, m.src, m.dst)).Perm (allMessages colls) ∧
        (ms.length ≤ 2 ^ 64 → (ms.map CallLink.key).Nodup) := by
  intro r
  obtain ⟨hpass, henough⟩ := passes_enough hn colls args hmerge hfirst
  have hid : ∀ te ∈ tes, te.2.id1.toNat < 2 ^ 32 := fun te hte =>
    Nat.lt_trans (hmerge.ranks te hte) (by omega)
  have hfault : Faultless (tes.map Prod.snd) r := faultless henough hl hpass
  obtain ⟨ms, hstarts, hends, hkeys, htags⟩ := hfault.shown hid henough fun k => by
    rw [Collective.takeTags_eq hn hmerge, Collective.putTags_eq hn hmerge]
  have hfiled : (ms.map fun m => (m.1, m.2.1)).Perm (filedMessages colls) := by
    apply perm_of_tags
    intro k
    rw [tags_filedMessages, ← Collective.putTags_eq hn hmerge, ← htags, List.filter_map,
      List.map_map]
    rfl
  have hcall : ∀ m ∈ ms, some (m.1.getD 0) = m.1 := by
    intro m hm
    obtain ⟨x, -, hx⟩ := List.mem_flatMap.mp (hfiled.subset (List.mem_map_of_mem hm))
    obtain ⟨p, -, hp⟩ := List.mem_map.mp hx
    have hsome : some x.2 = m.1 := congrArg Prod.fst hp
    rw [← hsome]
    rfl
  refine ⟨hfault.rounds, hfault.died, hfault.quiet,
    ms.map fun m => ⟨m.1.getD 0, rankOf m.2.1.2.1, rankOf m.2.1.2.2, m.2.2⟩, ?_, ?_, ?_, ?_⟩
  · rw [hstarts, List.map_map]
    apply List.map_congr_left
    intro m hm
    simp [hcall m hm, process_rankOf]
  · refine hends.trans (List.Perm.of_eq ?_)
    rw [List.map_map]
    apply List.map_congr_left
    intro m hm
    simp [hcall m hm, process_rankOf]
  · have hmessages := hfiled.map fun x => (x.1.getD 0, rankOf x.2.2.1, rankOf x.2.2.2)
    rw [map_filedMessages hn colls, List.map_map] at hmessages
    rw [List.map_map]
    exact hmessages
  · intro hlen
    rw [List.map_map]
    exact hkeys (by simpa using hlen)

/-- **World collectives link up exactly if fewer than `2 ^ 31` messages are under way in every queue.**
    Over any merge of the ranks' streams in which no call's receive comes before one of its sends, no
    `int` overflows then, every event is converted without a report, and the links are the messages
    of the calls, each of them once: there is a `StartLink` at its sender, and one `EndLink`, with its
    key, for the same call, at its receiver. -/
theorem collectives_linked {n : Nat} (hn : n < 2 ^ 31) (colls : List (Collective n))
    {args : Arguments} (hl : args.noLinks = false) {tes : List (Option Nat × Event)}
    (hmerge : TaggedMerge n (fun r => callStream (colls.map fun c => c.call r)) tes)
    (hfirst : SendsFirst tes) :
    let r := convertOn IntKeys args none (tes.map Prod.snd)
    (r.Defined ∧ r.rounds.map Prod.fst = tes.map Prod.snd ∧ r.died = false ∧ r.reports = [] ∧
        ∃ ms : List CallLink,
          r.starts (tes.map Prod.fst) =
            ms.map (fun m => (some m.call, mpiProcess (.ofNat m.src), m.key)) ∧
          (r.ends (tes.map Prod.fst)).Perm
            (ms.map fun m => (some m.call, mpiProcess (.ofNat m.dst), m.key)) ∧
          (ms.map fun m => (m.call, m.src, m.dst)).Perm (allMessages colls) ∧
          (ms.length ≤ 2 ^ 64 → (ms.map CallLink.key).Nodup)) ↔
      Within (2 ^ 31) (fun _ => 0) (filedReqs (tes.map Prod.snd)) := by
  intro r
  obtain ⟨hpass, henough⟩ := passes_enough hn colls args hmerge hfirst
  have hdefined := (convertOn_defined args none (tes.map Prod.snd)).trans
    (fewWaiting_of_all hl hpass henough)
  refine ⟨fun h => hdefined.mp h.1, fun hwithin => ⟨hdefined.mpr hwithin, ?_⟩⟩
  obtain ⟨hrounds, hdied, houts⟩ := convertOn_same ((fewWaiting_of_all hl hpass henough).mpr hwithin)
  rw [starts_congr hrounds, ends_congr hrounds, reports_congr houts, hrounds, hdied]
  exact collectives_shown hn colls hl hmerge hfirst

/-- A gather to rank 0 and a scatter from rank 1, which use one queue. -/
def gatherScatter : List (Collective 2) :=
  [⟨.gather, 0, fun _ => 1, fun _ => 4⟩, ⟨.scatter, 1, fun _ => 1, fun _ => 4⟩]

/-- Rank 1 is through with both before rank 0 starts. -/
def gatherScatterMerge : List (Option Nat × UInt64 × ℚ × Record) :=
  ((callStream (gatherScatter.map fun c => c.call 1)).map fun x => (x.1, 1, 0, x.2)) ++
    (callStream (gatherScatter.map fun c => c.call 0)).map fun x => (x.1, 0, 1, x.2)

theorem collectives_linked_gatherScatter :
    (convertOn IntKeys ⟨false, false, false⟩ none
      ((taggedEvents gatherScatterMerge).map Prod.snd)).reports = [] :=
  ((collectives_linked (by decide) gatherScatter rfl
    (taggedMerge_events (by decide +kernel) (by decide +kernel)) (by decide +kernel)).mpr
      (by decide +kernel)).2.2.2.1

/-! ## Too many of them -/

/-- A broadcast of rank 0 to rank 1. -/
def broadcast : Collective 2 := ⟨.bcast, 0, fun _ => 1, fun _ => 4⟩

/-- Rank 0 is through with all of them before rank 1 starts. -/
def broadcastsMerge (j : Nat) : List (Option Nat × UInt64 × ℚ × Record) :=
  ((callStream ((List.replicate j broadcast).map fun c => c.call 0)).map fun x => (x.1, 0, 0, x.2)) ++
    (callStream ((List.replicate j broadcast).map fun c => c.call 1)).map fun x => (x.1, 1, 1, x.2)

theorem broadcasts_merge (j : Nat) :
    TaggedMerge 2 (fun r => callStream ((List.replicate j broadcast).map fun c => c.call r))
      (taggedEvents (broadcastsMerge j)) := by
  refine taggedMerge_events (fun m hm => ?_) (fun r hr => ?_)
  · rcases List.mem_append.mp hm with hm | hm
    · obtain ⟨x, -, rfl⟩ := List.mem_map.mp hm
      exact (by decide : (0 : UInt64).toNat < 2)
    · obtain ⟨x, -, rfl⟩ := List.mem_map.mp hm
      exact (by decide : (1 : UInt64).toNat < 2)
  · have hcase : r = 0 ∨ r = 1 := by omega
    rcases hcase with rfl | rfl
    · simp [broadcastsMerge, List.filter_append, List.filter_map, Function.comp_def]
    · simp [broadcastsMerge, List.filter_append, List.filter_map, Function.comp_def]

/-- What the records of such a process are. -/
theorem mem_broadcasts {j r : Nat} {x : Option Nat × Record}
    (hx : x ∈ callStream ((List.replicate j broadcast).map fun c => c.call r)) :
    x.2 ∈ mpiInitRecords ++ ((broadcast.call r).run Library.init).1 ++ mpiFinalize.records := by
  have hmem : x.2 ∈ (callStream ((List.replicate j broadcast).map fun c => c.call r)).map Prod.snd :=
    List.mem_map_of_mem hx
  rw [map_snd_callStream, stream, Collective.runCalls_call, List.map_replicate] at hmem
  simp only [List.mem_append, List.mem_flatten, List.mem_replicate] at hmem ⊢
  rcases hmem with (hmem | ⟨rs, ⟨-, rfl⟩, hmem⟩) | hmem
  · exact .inl (.inl hmem)
  · exact .inl (.inr hmem)
  · exact .inr hmem

theorem broadcasts_first (j : Nat) : SendsFirst (taggedEvents (broadcastsMerge j)) := by
  have hroot : ∀ record ∈ mpiInitRecords ++ ((broadcast.call 0).run Library.init).1 ++
      mpiFinalize.records, (arm record.type).receives = false := by decide +kernel
  have hother : ∀ record ∈ mpiInitRecords ++ ((broadcast.call 1).run Library.init).1 ++
      mpiFinalize.records, (arm record.type).sends = false := by decide +kernel
  rw [SendsFirst, taggedEvents, List.pairwise_map, broadcastsMerge, List.pairwise_append]
  refine ⟨?_, ?_, ?_⟩
  · refine List.pairwise_map.mpr (List.pairwise_of_forall_mem_list fun x hx y _ _ hreceives => ?_)
    exact absurd ((hroot _ (mem_broadcasts hx)).symm.trans hreceives) (by simp)
  · exact List.pairwise_map.mpr (List.pairwise_of_forall_mem_list fun x _ y hy _ _ =>
      hother _ (mem_broadcasts hy))
  · intro x _ y hy _ _
    obtain ⟨z, hz, rfl⟩ := List.mem_map.mp hy
    exact hother _ (mem_broadcasts hz)

/-- Rank 0 sends one message in each. -/
theorem operations_broadcasts (j : Nat) :
    operations 0 (stream ((List.replicate j broadcast).map fun c => c.call 0)) =
      List.replicate j (.put (.oneToA, 0, 1)) := by
  have hinit : mpiInitRecords.flatMap (fun r => individual (.ofRecord 0 0 r)) = [] := by
    decide +kernel
  have hfinal : mpiFinalize.records.flatMap (fun r => individual (.ofRecord 0 0 r)) = [] := by
    decide +kernel
  have hcall : ((broadcast.call 0).run Library.init).1.flatMap
      (fun r => individual (.ofRecord 0 0 r)) = [.put (.oneToA, 0, 1)] := by decide +kernel
  rw [operations, stream, Collective.runCalls_call, List.map_replicate, List.flatMap_append,
    List.flatMap_append, hinit, hfinal, List.append_nil, List.nil_append]
  induction j with
  | zero => rfl
  | succ j ih =>
    rw [List.replicate_succ, List.flatten_cons, List.flatMap_append, hcall, ih, List.replicate_succ]
    rfl

theorem filed_broadcasts (j : Nat) :
    ∃ rest, filedReqs ((taggedEvents (broadcastsMerge j)).map Prod.snd) =
      List.replicate j (.put (Link.triple (.oneToA, 0, 1))) ++ rest := by
  have hevents : ∀ xs : List (Option Nat × Record),
      ((taggedEvents (xs.map fun x => (x.1, 0, 0, x.2))).map Prod.snd).flatMap individual =
        operations 0 (xs.map Prod.snd) := by
    intro xs
    simp [taggedEvents, operations, List.flatMap_map, Function.comp_def]
  rw [filedReqs, broadcastsMerge, taggedEvents, List.map_append, List.map_append,
    List.flatMap_append, List.map_append, ← taggedEvents, hevents, map_snd_callStream,
    operations_broadcasts, List.map_replicate]
  exact ⟨_, rfl⟩

/-- With `2 ^ 31` broadcasts an `int` overflows. -/
theorem broadcasts_undefined {j : Nat} (hj : 2 ^ 31 ≤ j) :
    ¬ (convertOn IntKeys ⟨false, false, false⟩ none
      ((taggedEvents (broadcastsMerge j)).map Prod.snd)).Defined := by
  obtain ⟨hpass, henough⟩ := passes_enough (by decide) (List.replicate j broadcast)
    ⟨false, false, false⟩ (broadcasts_merge j) (broadcasts_first j)
  obtain ⟨rest, hfiled⟩ := filed_broadcasts j
  obtain ⟨i, rfl⟩ : ∃ i, j = i + 1 := ⟨j - 1, by omega⟩
  rw [convertOn_defined, fewWaiting_of_all rfl hpass henough, hfiled]
  intro hwithin
  have hlt := hwithin.of_append.replicate
  omega

/-- `2 ^ 31` broadcasts, all of them sent before the first is received: the links are undefined. -/
theorem manyBroadcasts_undefined :
    TaggedMerge 2 (fun r => callStream ((List.replicate (2 ^ 31) broadcast).map fun c => c.call r))
        (taggedEvents (broadcastsMerge (2 ^ 31))) ∧
      SendsFirst (taggedEvents (broadcastsMerge (2 ^ 31))) ∧
      ¬ (convertOn IntKeys ⟨false, false, false⟩ none
        ((taggedEvents (broadcastsMerge (2 ^ 31))).map Prod.snd)).Defined :=
  ⟨broadcasts_merge _, broadcasts_first _, broadcasts_undefined (Nat.le_refl _)⟩

end System
end Akypuera

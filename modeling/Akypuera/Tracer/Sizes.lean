import Akypuera.Tracer.Wrappers

/-!
# The sizes of messages

Twelve wrappers record a message that goes out, and put its size in the second field of the record.
Eleven of them multiply the count with the size of the datatype. `MPI_Gather` does not ask for that
size and **records the count** (`Call.recordsCount`), so that its messages are measured in elements
while all others are measured in bytes.
-/

set_option autoImplicit false

namespace Akypuera
namespace Tracer

open Code

/-- The records of messages that go out: from one to one, from one to all, from one to each, from
    each to one and from all to one. -/
def sendTypes : List Nat := [akyPtpSend, aky1taSend, aky1tnSend, akyNt1Send, akyAt1Send]

/-- A call that sends, with its count and the size of its datatype. -/
inductive Sized : Call → Int32 → Int32 → Prop
  | bcast (comm : Comm) (count tsize root : Int32) :
      Sized (.bcast comm count tsize root) count tsize
  | gather (comm : Comm) (sendcnt root tsize : Int32) :
      Sized (.gather comm sendcnt root) sendcnt tsize
  | reduce (comm : Comm) (count tsize root : Int32) :
      Sized (.reduce comm count tsize root) count tsize
  | scatter (comm : Comm) (sendcnt tsize root : Int32) :
      Sized (.scatter comm sendcnt tsize root) sendcnt tsize
  | bsend (s : Sending) : Sized (.bsend s) s.count s.tsize
  | ibsend (s : Sending) : Sized (.ibsend s) s.count s.tsize
  | irsend (s : Sending) : Sized (.irsend s) s.count s.tsize
  | isend (s : Sending) (request : Ptr) : Sized (.isend s request) s.count s.tsize
  | issend (s : Sending) : Sized (.issend s) s.count s.tsize
  | rsend (s : Sending) : Sized (.rsend s) s.count s.tsize
  | send (s : Sending) : Sized (.send s) s.count s.tsize
  | ssend (s : Sending) : Sized (.ssend s) s.count s.tsize

/-- A gather, on the side that sends. -/
def Call.recordsCount : Call → Prop
  | gather comm _ root => comm.rank ≠ root
  | _ => False

/-- Every message among the records has this size. -/
def SizeIs (rs : List Record) (size : UInt32) : Prop :=
  ∀ r ∈ rs, r.type ∈ sendTypes → r.u32[1]? = some size

/-- Every message among the records is as long as `count` elements of `tsize` bytes. -/
def SizeInBytes (rs : List Record) (count tsize : Int32) : Prop :=
  ∀ r ∈ rs, r.type ∈ sendTypes →
    ∃ size, r.u32[1]? = some size ∧ (size.toNat : Int) = count.toInt * tsize.toInt

/-! ## What the wrappers record -/

theorem SizeIs.append {rs rs' : List Record} {size : UInt32} (h : SizeIs rs size)
    (h' : SizeIs rs' size) : SizeIs (rs ++ rs') size := by
  intro r hr
  rcases List.mem_append.mp hr with hr | hr
  · exact h r hr
  · exact h' r hr

theorem sizeIs_nil (size : UInt32) : SizeIs [] size := by
  intro r hr
  exact absurd hr List.not_mem_nil

/-- A record of another type. -/
theorem sizeIs_other {r : Record} {size : UInt32} (type : Nat) (htype : r.type = type)
    (h : type ∉ sendTypes) : SizeIs [r] size := by
  intro r' hr' hsend
  rw [List.mem_singleton.mp hr', htype] at hsend
  exact absurd hsend h

theorem sizeIs_message (type : Nat) (i0 size : UInt32) (l0 : UInt64) :
    SizeIs [rstEventIil type i0 size l0] size := by
  intro r hr _
  rw [List.mem_singleton.mp hr]
  rfl

/-- A point-to-point send: a message between two records. -/
theorem sizeIs_send {tr : Library} {inRecord : Record} {outType : Nat} {s : Sending} (inType : Nat)
    (htype : inRecord.type = inType) (hin : inType ∉ sendTypes) (hout : outType ∉ sendTypes) :
    SizeIs (send tr inRecord outType s).1 s.bytes := by
  have hentered : SizeIs [inRecord] s.bytes := sizeIs_other inType htype hin
  have hleft : SizeIs [rstEvent outType] s.bytes := sizeIs_other outType rfl hout
  exact hentered.append ((sizeIs_message _ _ _ _).append hleft)

/-- The part of a collective that sends. -/
theorem sizeIs_entered {type : Nat} {i0 size : UInt32} {l0 : UInt64} {entered : Record}
    (inType : Nat) (htype : entered.type = inType) (hin : inType ∉ sendTypes) :
    SizeIs [entered, rstEventIil type i0 size l0] size := by
  have hentered : SizeIs [entered] size := sizeIs_other inType htype hin
  exact hentered.append (sizeIs_message _ _ _ _)

/-- A collective: who sends and who receives depends on who is the root. -/
theorem sizeIs_collective {p q : Prop} [Decidable p] [Decidable q] {rs rs' rs'' left : List Record}
    {size : UInt32} (h : SizeIs rs size) (h' : SizeIs rs' size) (hrecv : SizeIs rs'' size)
    (hleft : SizeIs left size) :
    SizeIs ((if p then rs else rs') ++ (if q then rs'' else []) ++ left) size := by
  refine SizeIs.append (SizeIs.append ?_ ?_) hleft
  · split
    · exact h
    · exact h'
  · split
    · exact hrecv
    · exact sizeIs_nil size

/-- What a gather records for a message, where there is one, is the count. -/
theorem sizeIs_gather (comm : Comm) (sendcnt root : Int32) :
    SizeIs (mpiGather comm sendcnt root) sendcnt.toUInt32 :=
  sizeIs_collective (sizeIs_other mpiGatherIn rfl (by decide))
    (sizeIs_entered mpiGatherIn rfl (by decide)) (sizeIs_other akyNt1Recv rfl (by decide))
    (sizeIs_other mpiGatherOut rfl (by decide))

/-- **The other wrappers record the product.** -/
theorem Sized.sizeIs {c : Call} {count tsize : Int32} (hs : Sized c count tsize) (tr : Library)
    (hc : ¬ c.recordsCount) : SizeIs (c.run tr).1 (count * tsize).toUInt32 := by
  cases hs with
  | bcast comm count tsize root =>
    exact sizeIs_collective (sizeIs_entered mpiBcastIn rfl (by decide))
      (sizeIs_other mpiBcastIn rfl (by decide)) (sizeIs_other aky1taRecv rfl (by decide))
      (sizeIs_other mpiBcastOut rfl (by decide))
  | gather comm count root tsize =>
    have hroot : comm.rank = root := not_not.mp hc
    show SizeIs (mpiGather comm count root) _
    rw [mpiGather, if_pos hroot, if_pos hroot]
    exact ((sizeIs_other mpiGatherIn rfl (by decide)).append
      (sizeIs_other akyNt1Recv rfl (by decide))).append (sizeIs_other mpiGatherOut rfl (by decide))
  | reduce comm count tsize root =>
    exact sizeIs_collective (sizeIs_other mpiReduceIn rfl (by decide))
      (sizeIs_entered mpiReduceIn rfl (by decide)) (sizeIs_other akyAt1Recv rfl (by decide))
      (sizeIs_other mpiReduceOut rfl (by decide))
  | scatter comm count tsize root =>
    exact sizeIs_collective (sizeIs_entered mpiScatterIn rfl (by decide))
      (sizeIs_other mpiScatterIn rfl (by decide)) (sizeIs_other aky1tnRecv rfl (by decide))
      (sizeIs_other mpiScatterOut rfl (by decide))
  | bsend s => exact sizeIs_send mpiBsendIn rfl (by decide) (by decide)
  | ibsend s => exact sizeIs_send mpiIbsendIn rfl (by decide) (by decide)
  | irsend s => exact sizeIs_send mpiIrsendIn rfl (by decide) (by decide)
  | isend s request => exact sizeIs_send mpiIsendIn rfl (by decide) (by decide)
  | issend s => exact sizeIs_send mpiIssendIn rfl (by decide) (by decide)
  | rsend s => exact sizeIs_send mpiRsendIn rfl (by decide) (by decide)
  | send s => exact sizeIs_send mpiSendIn rfl (by decide) (by decide)
  | ssend s => exact sizeIs_send mpiSsendIn rfl (by decide) (by decide)

/-- A gather records its message. -/
theorem exists_message {comm : Comm} {root : Int32} (sendcnt : Int32) (hroot : comm.rank ≠ root) :
    ∃ r ∈ mpiGather comm sendcnt root, r.type ∈ sendTypes := by
  refine ⟨rstEventIil akyNt1Send (akyTranslateRank comm root).toUInt32 sendcnt.toUInt32
    (ofInt comm.size), ?_, show akyNt1Send ∈ sendTypes by decide⟩
  rw [mpiGather, if_neg hroot]
  simp

/-! ## The numbers -/

theorem toNat_toUInt32 {i : Int32} (h : 0 ≤ i.toInt) : (i.toUInt32.toNat : Int) = i.toInt := by
  have hle : (0 : Int32) ≤ i := Int32.le_iff_toInt_le.mpr h
  rw [Int32.toNat_toUInt32_of_le hle, ← Int32.toNat_toInt, Int.toNat_of_nonneg h]

/-- A product that an `int` holds. -/
theorem toNat_toUInt32_mul {a b : Int32} (ha : 0 ≤ a.toInt) (hb : 0 ≤ b.toInt)
    (hlt : a.toInt * b.toInt < 2 ^ 31) :
    ((a * b).toUInt32.toNat : Int) = a.toInt * b.toInt := by
  have hpos := Int.mul_nonneg ha hb
  have hmul : (a * b).toInt = a.toInt * b.toInt := by
    rw [Int32.toInt_mul]
    exact Int.bmod_eq_of_le (by omega) (by omega)
  rw [toNat_toUInt32 (by rwa [hmul]), hmul]

theorem SizeIs.inBytes_iff {rs : List Record} {size : UInt32} {count tsize : Int32}
    (h : SizeIs rs size) :
    SizeInBytes rs count tsize ↔ (∃ r ∈ rs, r.type ∈ sendTypes) →
      (size.toNat : Int) = count.toInt * tsize.toInt := by
  constructor
  · rintro hbytes ⟨r, hr, htype⟩
    obtain ⟨size', hsize', heq⟩ := hbytes r hr htype
    rw [h r hr htype] at hsize'
    rwa [Option.some.inj hsize']
  · intro heq r hr htype
    exact ⟨size, h r hr htype, heq ⟨r, hr, htype⟩⟩

/-- **Sizes are in bytes on every path but that of a gather**, where they are if there is nothing to
    send or the elements are bytes. -/
theorem sizes_in_bytes_iff {c : Call} {count tsize : Int32} (hs : Sized c count tsize)
    (hcount : 0 ≤ count.toInt) (htsize : 0 ≤ tsize.toInt)
    (hlt : count.toInt * tsize.toInt < 2 ^ 31) (tr : Library) :
    SizeInBytes (c.run tr).1 count tsize ↔ (c.recordsCount → count = 0 ∨ tsize = 1) := by
  by_cases hc : c.recordsCount
  · cases hs with
    | gather comm count root tsize =>
      have hmessage := exists_message count (hc : comm.rank ≠ root)
      have hone : tsize = 1 ↔ tsize.toInt = 1 := Int32.toInt_inj.symm
      have hzero : count = 0 ↔ count.toInt = 0 := Int32.toInt_inj.symm
      show SizeInBytes (mpiGather comm count root) count tsize ↔ _
      rw [(sizeIs_gather comm count root).inBytes_iff, toNat_toUInt32 hcount,
        forall_prop_of_true hmessage, forall_prop_of_true hc, hone, hzero]
      rw [eq_comm, mul_right_eq_self₀, or_comm]
    | _ => exact absurd hc id
  · rw [forall_prop_of_false hc, (hs.sizeIs tr hc).inBytes_iff]
    exact iff_of_true (fun _ => toNat_toUInt32_mul hcount htsize hlt) trivial

/-- A communicator of four, as rank 1 sees it. -/
def commOfFour : Comm := { rank := 1, size := 4, world := id }

theorem sizes_in_bytes_iff_reduce :
    SizeInBytes ((Call.reduce commOfFour 1 4 0).run Library.init).1 1 4 :=
  (sizes_in_bytes_iff (.reduce commOfFour 1 4 0) (by decide) (by decide) (by decide)
    Library.init).mpr False.elim

/-- One `int`, gathered at rank 0: the message of rank 1 is said to have one byte. -/
theorem gather_not_in_bytes :
    Sized (.gather commOfFour 1 0) 1 4 ∧ (1 : Int32).toInt * (4 : Int32).toInt < 2 ^ 31 ∧
      ¬ SizeInBytes ((Call.gather commOfFour 1 0).run Library.init).1 1 4 := by
  refine ⟨.gather commOfFour 1 0 4, by decide, ?_⟩
  intro h
  obtain ⟨size, hsize, heq⟩ := h (rstEventIil akyNt1Send 0 1 4) (by decide) (by decide)
  rw [← Option.some.inj hsize] at heq
  exact absurd heq (by decide)

end Tracer
end Akypuera

import Akypuera.Converter.Links
import Akypuera.System.Merge

/-!
# The shape of a recorded stream

The converter's labels and the tracer's wrappers were written separately, and agree on one
thing: **every wrapped call is a bracket**. It records nothing, or a number the converter
pushes a state for, then messages, then a number the converter pops a state for; and the
record that opens it has the fields the converter asserts.

For the wrappers that record nothing in between, this is one check over `plainCalls` and the
two label lists; the others are done one by one.
-/

set_option autoImplicit false

namespace Akypuera
namespace System

open Code Converter Tracer

/-- A record that pushes a state and has the fields the converter asserts. -/
structure Opens (r : Record) : Prop where
  pushes : (arm r.type).pushes = true
  send : arm r.type = .pushStateSend → 1 ≤ r.u32.length ∧ r.u64.length = 1
  recv : arm r.type = .pushStateRecv → r.u32.length = 1

/-- A record of a message, with the field the converter reads. -/
structure Message (r : Record) : Prop where
  isLink : (arm r.type).isLink = true
  peer : r.u32 ≠ []

/-- The records of a call: none, or an opening one, messages, and a closing one. -/
def Bracketed (rs : List Record) : Prop :=
  rs = [] ∨ ∃ opening messages closing, rs = opening :: messages ++ [closing] ∧ Opens opening ∧
    (∀ m ∈ messages, Message m) ∧ arm closing.type = .popState

theorem opens_plain {type : Nat} (h : arm type = .pushState) (u32 : List UInt32)
    (u64 : List UInt64) : Opens ⟨type, u32, u64⟩ where
  pushes := by show (arm type).pushes = true; rw [h]; rfl
  send hs := absurd (h.symm.trans hs) (by simp)
  recv hr := absurd (h.symm.trans hr) (by simp)

theorem opens_send {type : Nat} (h : arm type = .pushStateSend) (i0 : UInt32) (l0 : UInt64) :
    Opens (rstEventIl type i0 l0) where
  pushes := by show (arm type).pushes = true; rw [h]; rfl
  send _ := ⟨Nat.le_refl 1, rfl⟩
  recv hr := absurd (h.symm.trans hr) (by simp)

theorem opens_recv {type : Nat} (h : arm type = .pushStateRecv) (i0 : UInt32) :
    Opens (rstEventI type i0) where
  pushes := by show (arm type).pushes = true; rw [h]; rfl
  send hs := absurd (h.symm.trans hs) (by simp)
  recv _ := rfl

/-- The wrappers that record nothing in between. -/
theorem arm_plainCalls : ∀ b ∈ plainCalls,
    arm b.inType = .pushState ∧ arm b.outType = .popState := by
  decide +kernel

/-- The opening numbers of the others. -/
theorem arm_opening : ∀ type ∈ [mpiBcastIn, mpiGatherIn, mpiReduceIn, mpiScatterIn, mpiBsendIn,
    mpiIbsendIn, mpiIrsendIn, mpiIssendIn, mpiRsendIn, mpiSsendIn, mpiWaitIn, mpiWaitallIn,
    mpiWaitanyIn, mpiFinalizeIn], arm type = .pushState := by
  decide +kernel

/-- Their closing numbers. -/
theorem arm_closing : ∀ type ∈ [mpiBcastOut, mpiGatherOut, mpiReduceOut, mpiScatterOut,
    mpiBsendOut, mpiIbsendOut, mpiIrsendOut, mpiIsendOut, mpiIssendOut, mpiRsendOut, mpiSendOut,
    mpiSsendOut, mpiRecvOut, mpiIrecvOut, mpiWaitOut, mpiWaitallOut, mpiWaitanyOut],
    arm type = .popState := by
  decide +kernel

/-- The numbers of messages. -/
theorem arm_message : ∀ type ∈ [akyPtpSend, akyPtpRecv, aky1tnSend, aky1tnRecv, akyNt1Send,
    akyNt1Recv, aky1taSend, aky1taRecv, akyAt1Send, akyAt1Recv], (arm type).isLink = true := by
  decide +kernel

theorem message (type : Nat) (h : type ∈ [akyPtpSend, akyPtpRecv, aky1tnSend, aky1tnRecv,
    akyNt1Send, akyNt1Recv, aky1taSend, aky1taRecv, akyAt1Send, akyAt1Recv]) {i0 : UInt32}
    {u32 : List UInt32} {u64 : List UInt64} : Message ⟨type, i0 :: u32, u64⟩ :=
  ⟨arm_message type h, List.cons_ne_nil i0 u32⟩

theorem Bracketed.intro {opening closing : Record} (messages : List Record)
    (ho : Opens opening) (hm : ∀ m ∈ messages, Message m)
    (hc : arm closing.type = .popState) : Bracketed (opening :: messages ++ [closing]) :=
  Or.inr ⟨opening, messages, closing, rfl, ho, hm, hc⟩

/-- A call with one message. -/
theorem Bracketed.one {opening message closing : Record} (ho : Opens opening)
    (hm : Message message) (hc : arm closing.type = .popState) :
    Bracketed [opening, message, closing] :=
  Bracketed.intro [message] ho (fun m h => by rw [List.mem_singleton.mp h]; exact hm) hc

theorem send_bracketed (tr : Library) {inRecord : Record} {outType : Nat} (s : Sending)
    (ho : Opens inRecord) (hc : arm outType = .popState) :
    Bracketed (send tr inRecord outType s).1 :=
  Bracketed.one ho (message akyPtpSend (by simp)) hc

theorem completeIrecv_message (tr : Library) (req : Ptr) (source : Int32) :
    ∀ m ∈ (completeIrecv tr req source).1, Message m := by
  unfold completeIrecv
  split
  · intro m hm
    rw [List.mem_singleton.mp hm]
    exact message akyPtpRecv (by simp)
  · exact fun m hm => absurd hm (by simp)

theorem completeIrecvs_message (tr : Library) (req : Ptr) (sources : List Int32) :
    ∀ m ∈ (completeIrecvs tr req sources).1, Message m := by
  induction sources generalizing tr req with
  | nil => exact fun m hm => absurd hm (by simp [completeIrecvs])
  | cons source sources ih =>
    intro m hm
    rcases List.mem_append.mp hm with hm | hm
    · exact completeIrecv_message tr req source m hm
    · exact ih _ _ m hm

theorem mpiBcast_bracketed (comm : Comm) (count tsize root : Int32) :
    Bracketed (mpiBcast comm count tsize root) := by
  have hin := arm_opening mpiBcastIn (by simp)
  have hout := arm_closing mpiBcastOut (by simp)
  by_cases hr : comm.rank = root
  · simp only [mpiBcast, hr, if_true, ne_eq, not_true, if_false, List.append_nil]
    exact Bracketed.one (opens_plain hin _ _) (message aky1taSend (by simp)) hout
  · simp only [mpiBcast, hr, if_false, ne_eq, not_false_iff, if_true]
    exact Bracketed.one (opens_plain hin _ _) (message aky1taRecv (by simp)) hout

theorem mpiScatter_bracketed (comm : Comm) (sendcnt tsize root : Int32) :
    Bracketed (mpiScatter comm sendcnt tsize root) := by
  have hin := arm_opening mpiScatterIn (by simp)
  have hout := arm_closing mpiScatterOut (by simp)
  by_cases hr : comm.rank = root
  · simp only [mpiScatter, hr, if_true, ne_eq, not_true, if_false, List.append_nil]
    exact Bracketed.one (opens_plain hin _ _) (message aky1tnSend (by simp)) hout
  · simp only [mpiScatter, hr, if_false, ne_eq, not_false_iff, if_true]
    exact Bracketed.one (opens_plain hin _ _) (message aky1tnRecv (by simp)) hout

theorem mpiGather_bracketed (comm : Comm) (sendcnt root : Int32) :
    Bracketed (mpiGather comm sendcnt root) := by
  have hin := arm_opening mpiGatherIn (by simp)
  have hout := arm_closing mpiGatherOut (by simp)
  by_cases hr : comm.rank = root
  · simp only [mpiGather, hr, if_true]
    exact Bracketed.one (opens_plain hin _ _) (message akyNt1Recv (by simp)) hout
  · simp only [mpiGather, hr, if_false, List.append_nil]
    exact Bracketed.one (opens_plain hin _ _) (message akyNt1Send (by simp)) hout

theorem mpiReduce_bracketed (comm : Comm) (count tsize root : Int32) :
    Bracketed (mpiReduce comm count tsize root) := by
  have hin := arm_opening mpiReduceIn (by simp)
  have hout := arm_closing mpiReduceOut (by simp)
  by_cases hr : comm.rank = root
  · simp only [mpiReduce, hr, if_true]
    exact Bracketed.one (opens_plain hin _ _) (message akyAt1Recv (by simp)) hout
  · simp only [mpiReduce, hr, if_false, List.append_nil]
    exact Bracketed.one (opens_plain hin _ _) (message akyAt1Send (by simp)) hout

theorem mpiWait_bracketed (tr : Library) (request : Ptr) (source : Int32) :
    Bracketed (mpiWait tr request source).1 := by
  have hin := arm_opening mpiWaitIn (by simp)
  have hout := arm_closing mpiWaitOut (by simp)
  by_cases hs : akyCheckIsend tr request ≠ 0
  · simp only [mpiWait, if_pos hs]
    exact Bracketed.intro _ (opens_plain hin _ _) (completeIrecv_message _ _ _) hout
  · simp only [mpiWait, if_neg hs]
    exact Bracketed.intro _ (opens_plain hin _ _) (completeIrecv_message _ _ _) hout

/-- **Every wrapped call is a bracket**, whatever MPI answers. -/
theorem call_bracketed (tr : Library) (c : Call) : Bracketed (c.run tr).1 := by
  have hopen : ∀ {type : Nat}, type ∈ _ → ∀ u32 u64, Opens ⟨type, u32, u64⟩ :=
    fun h u32 u64 => opens_plain (arm_opening _ h) u32 u64
  cases c with
  | plain b =>
    obtain ⟨hin, hout⟩ := arm_plainCalls b.1 b.2
    exact Bracketed.intro [] (opens_plain hin _ _) (by simp) hout
  | getProcessorName => exact Or.inl rfl
  | bcast comm count tsize root => exact mpiBcast_bracketed comm count tsize root
  | gather comm sendcnt root => exact mpiGather_bracketed comm sendcnt root
  | reduce comm count tsize root => exact mpiReduce_bracketed comm count tsize root
  | scatter comm sendcnt tsize root => exact mpiScatter_bracketed comm sendcnt tsize root
  | bsend s => exact send_bracketed tr s (hopen (by simp) _ _) (arm_closing _ (by simp))
  | ibsend s => exact send_bracketed tr s (hopen (by simp) _ _) (arm_closing _ (by simp))
  | irsend s => exact send_bracketed tr s (hopen (by simp) _ _) (arm_closing _ (by simp))
  | isend s request =>
    exact send_bracketed tr s (opens_send (by decide +kernel) _ _) (arm_closing _ (by simp))
  | issend s => exact send_bracketed tr s (hopen (by simp) _ _) (arm_closing _ (by simp))
  | rsend s => exact send_bracketed tr s (hopen (by simp) _ _) (arm_closing _ (by simp))
  | send s =>
    exact send_bracketed tr s (opens_send (by decide +kernel) _ _) (arm_closing _ (by simp))
  | ssend s => exact send_bracketed tr s (hopen (by simp) _ _) (arm_closing _ (by simp))
  | recv comm count tsize source =>
    exact Bracketed.one (opens_recv (by decide +kernel) _) (message akyPtpRecv (by simp))
      (arm_closing mpiRecvOut (by simp))
  | irecv count tsize request =>
    exact Bracketed.intro [] (opens_recv (by decide +kernel) _) (by simp)
      (arm_closing mpiIrecvOut (by simp))
  | wait request source => exact mpiWait_bracketed tr request source
  | waitall arrayOfRequests sources =>
    exact Bracketed.intro _ (hopen (by simp) _ _) (completeIrecvs_message tr _ sources)
      (arm_closing mpiWaitallOut (by simp))
  | waitany arrayOfRequests index source =>
    exact Bracketed.intro _ (hopen (by simp) _ _) (completeIrecv_message tr _ source)
      (arm_closing mpiWaitanyOut (by simp))

/-- The calls of a process, each a bracket. -/
theorem runCalls_bracketed (tr : Library) (cs : List Call) :
    ∀ rs ∈ runCalls tr cs, Bracketed rs := by
  induction cs generalizing tr with
  | nil => exact fun rs h => absurd h (by simp [runCalls])
  | cons c cs ih =>
    intro rs h
    rcases List.mem_cons.mp h with rfl | h
    · exact call_bracketed tr c
    · exact ih _ rs h

/-- The process survives a record: it opens a state with the right fields, or none. -/
def Sound (r : Record) : Prop := (arm r.type).pushes = true → Opens r

theorem Bracketed.sound {rs : List Record} (h : Bracketed rs) : ∀ r ∈ rs, Sound r := by
  rcases h with rfl | ⟨opening, messages, closing, rfl, ho, hm, hc⟩
  · exact fun r h => absurd h (by simp)
  · intro r hr
    rcases List.mem_append.mp hr with hr | hr
    · rcases List.mem_cons.mp hr with rfl | hr
      · exact fun _ => ho
      · intro hp
        have hlink := (hm r hr).isLink
        cases ha : arm r.type <;> simp [ha, Arm.pushes, Arm.isLink] at hp hlink
    · rw [List.mem_singleton.mp hr]
      intro hp
      rw [hc] at hp
      exact absurd hp (by simp [Arm.pushes])

/-- Every record of a process is sound. -/
theorem stream_sound (cs : List Call) : ∀ r ∈ stream cs, Sound r := by
  intro r hr
  unfold stream at hr
  rcases List.mem_append.mp hr with hr | hr
  · rcases List.mem_append.mp hr with hr | hr
    · rw [List.mem_singleton.mp hr]
      have hinit : arm (rstEvent mpiInit).type = .init := by decide +kernel
      intro hp
      rw [hinit] at hp
      exact absurd hp (by simp [Arm.pushes])
    · obtain ⟨rs, hrs, hr⟩ := List.mem_flatten.mp hr
      exact (runCalls_bracketed Library.init cs rs hrs).sound r hr
  · rcases List.mem_cons.mp hr with rfl | hr
    · exact fun _ => opens_plain (arm_opening mpiFinalizeIn (by simp)) _ _
    · rw [List.mem_singleton.mp hr]
      have hfinal : arm (rstEvent mpiFinalize.outType).type = .finalizeOut := by decide +kernel
      intro hp
      rw [hfinal] at hp
      exact absurd hp (by simp [Arm.pushes])

/-- A message record has the field the converter reads. -/
def HasPeer (r : Record) : Prop := (arm r.type).isLink = true → r.u32 ≠ []

theorem hasPeer_of_ne {r : Record} (h : (arm r.type).isLink = false) : HasPeer r :=
  fun hlink => absurd (h.symm.trans hlink) (by simp)

theorem Opens.hasPeer {r : Record} (h : Opens r) : HasPeer r := by
  refine hasPeer_of_ne ?_
  have hp := h.pushes
  cases ha : arm r.type <;> simp [ha, Arm.pushes, Arm.isLink] at hp ⊢

theorem Bracketed.hasPeer {rs : List Record} (h : Bracketed rs) : ∀ r ∈ rs, HasPeer r := by
  rcases h with rfl | ⟨opening, messages, closing, rfl, ho, hm, hc⟩
  · exact fun r h => absurd h (by simp)
  · intro r hr
    rcases List.mem_append.mp hr with hr | hr
    · rcases List.mem_cons.mp hr with rfl | hr
      · exact ho.hasPeer
      · exact fun _ => (hm r hr).peer
    · rw [List.mem_singleton.mp hr]
      exact hasPeer_of_ne (by rw [hc]; rfl)

/-- Every message record of a process has it. -/
theorem stream_hasPeer (cs : List Call) : ∀ r ∈ stream cs, HasPeer r := by
  intro r hr
  unfold stream at hr
  rcases List.mem_append.mp hr with hr | hr
  · rcases List.mem_append.mp hr with hr | hr
    · rw [List.mem_singleton.mp hr]
      exact hasPeer_of_ne (by decide +kernel)
    · obtain ⟨rs, hrs, hr⟩ := List.mem_flatten.mp hr
      exact (runCalls_bracketed Library.init cs rs hrs).hasPeer r hr
  · rcases List.mem_cons.mp hr with rfl | hr
    · exact hasPeer_of_ne (by decide +kernel)
    · rw [List.mem_singleton.mp hr]
      exact hasPeer_of_ne (by decide +kernel)

/-- **No assert fails** on the event of a sound record. -/
theorem passes_of_sound {args : Arguments} {id : UInt64} {r : Record} {e : Event}
    (h : Sound r) (hd : Event.Decodes id r e) : passes args e = true := by
  unfold passes
  cases hp : (arm e.type).pushes with
  | false => simp
  | true =>
    have ho : Opens r := h (by rw [← hd.type]; exact hp)
    have hvalue : (stateValue e).isSome = true := by
      simpa [stateValue] using nameGet_isSome hp
    obtain ⟨value, hvalue⟩ := Option.isSome_iff_exists.mp hvalue
    have hpushed : (statePushed e).isSome = true := by
      unfold statePushed
      cases ha : arm e.type with
      | pushState =>
        simp only [pushState, hvalue, Option.bind_eq_bind, Option.bind_some]
        split <;> rfl
      | pushStateSend =>
        obtain ⟨h32, h64⟩ := ho.send (by rw [← hd.type]; exact ha)
        rw [← hd.nUint32] at h32
        rw [← hd.nUint64] at h64
        simp [pushStateSend, hvalue, h32, h64, guard]
      | pushStateRecv =>
        have h32 := ho.recv (by rw [← hd.type]; exact ha)
        rw [← hd.nUint32] at h32
        simp [pushStateRecv, hvalue, h32, guard]
      | _ => rw [ha] at hp; exact absurd hp (by simp [Arm.pushes])
    simp [hpushed]

end System
end Akypuera

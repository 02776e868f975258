import Akypuera.Tracer.Wrappers

/-!
# Marks number the sends

Eight wrappers share `send_mark`. Each of them records it twice, as the call is entered and with the
message, and then increments it; the others leave it alone. So **the marks of a process count its
sends**, whatever it calls in between (`sends_numbered`).
-/

set_option autoImplicit false

namespace Akypuera
namespace Tracer

open Code

/-- A wrapped call, also one that stands at an end of the stream. -/
inductive Wrapped where
  | init
  | call (c : Call)
  | abort
  | finalize

/-- What it records, and what the library remembers after it. -/
def Wrapped.run (tr : Library) : Wrapped → List Record × Library
  | init => (mpiInitRecords, tr)
  | call c => c.run tr
  | abort => (mpiAbort.records, tr)
  | finalize => (mpiFinalize.records, tr)

/-- The event numbers of a call that sends. -/
def Call.sends : Call → Option Bracket
  | bsend _ => some ⟨mpiBsendIn, mpiBsendOut⟩
  | ibsend _ => some ⟨mpiIbsendIn, mpiIbsendOut⟩
  | irsend _ => some ⟨mpiIrsendIn, mpiIrsendOut⟩
  | isend _ _ => some ⟨mpiIsendIn, mpiIsendOut⟩
  | issend _ => some ⟨mpiIssendIn, mpiIssendOut⟩
  | rsend _ => some ⟨mpiRsendIn, mpiRsendOut⟩
  | send _ => some ⟨mpiSendIn, mpiSendOut⟩
  | ssend _ => some ⟨mpiSsendIn, mpiSsendOut⟩
  | _ => none

def Wrapped.sends : Wrapped → Option Bracket
  | call c => c.sends
  | _ => none

/-- The records of messages that are sent. -/
def ptpSends (rs : List Record) : List Record := rs.filter fun r => r.type = akyPtpSend

/-! ## One call -/

/-- What a send records that is given a mark. -/
structure Marks (b : Bracket) (mark : UInt64) (rs : List Record) : Prop where
  shape : ∃ entered message left, rs = [entered, message, left] ∧
    entered.type = b.inType ∧ entered.u64 = [mark] ∧
    message.type = akyPtpSend ∧ message.u64 = [mark] ∧ left.type = b.outType
  once : (ptpSends rs).map Record.u64 = [[mark]]

theorem marks_send {b : Bracket} {inRecord : Record} (tr : Library) (s : Sending)
    (htype : inRecord.type = b.inType) (hmark : inRecord.u64 = [tr.sendMark])
    (hin : b.inType ≠ akyPtpSend) (hout : b.outType ≠ akyPtpSend) :
    Marks b tr.sendMark (send tr inRecord b.outType s).1 := by
  refine ⟨⟨_, _, _, rfl, htype, hmark, rfl, rfl, rfl⟩, ?_⟩
  have hentered : inRecord.type ≠ akyPtpSend := htype ▸ hin
  have hleft : (rstEvent b.outType).type ≠ akyPtpSend := hout
  show (List.filter _ [inRecord, s.message tr.sendMark, rstEvent b.outType]).map _ = _
  rw [List.filter_cons_of_neg (by simpa using hentered),
    List.filter_cons_of_pos (by simp [Sending.message, rstEventIil]),
    List.filter_cons_of_neg (by simpa using hleft)]
  rfl

theorem ptpSends_append (rs rs' : List Record) :
    ptpSends (rs ++ rs') = ptpSends rs ++ ptpSends rs' := List.filter_append ..

/-- Records of other types. -/
theorem ptpSends_eq_nil {rs : List Record} (h : akyPtpSend ∉ rs.map Record.type) :
    ptpSends rs = [] := by
  refine List.filter_eq_nil_iff.mpr fun r hr htype => h ?_
  exact List.mem_map.mpr ⟨r, hr, of_decide_eq_true htype⟩

theorem ptpSends_brackets : ∀ b ∈ plainCalls, akyPtpSend ∉ b.records.map Record.type := by
  decide +kernel

/-- A collective: what it records depends on who is the root. -/
theorem ptpSends_collective {p q : Prop} [Decidable p] [Decidable q] {rs rs' rs'' : List Record}
    {left : Record} (h : akyPtpSend ∉ rs.map Record.type) (h' : akyPtpSend ∉ rs'.map Record.type)
    (h'' : akyPtpSend ∉ rs''.map Record.type) (hleft : akyPtpSend ∉ [left].map Record.type) :
    ptpSends ((if p then rs else rs') ++ (if q then rs'' else []) ++ [left]) = [] := by
  have hnil : akyPtpSend ∉ ([] : List Record).map Record.type := List.not_mem_nil
  rw [ptpSends_append, ptpSends_append, ptpSends_eq_nil hleft, apply_ite ptpSends,
    ptpSends_eq_nil h, ptpSends_eq_nil h', apply_ite ptpSends, ptpSends_eq_nil h'',
    ptpSends_eq_nil hnil, ite_self, ite_self]
  rfl

/-! ## Receives that are completed -/

theorem completeIrecv_keeps (tr : Library) (req : Ptr) (source : Int32) :
    (completeIrecv tr req source).2.sendMark = tr.sendMark ∧
      ptpSends (completeIrecv tr req source).1 = [] := by
  unfold completeIrecv
  split
  · exact ⟨rfl, ptpSends_eq_nil (show akyPtpSend ∉ [akyPtpRecv] by decide)⟩
  · exact ⟨rfl, rfl⟩

theorem completeIrecvs_keeps (tr : Library) (req : Ptr) (sources : List Int32) :
    (completeIrecvs tr req sources).2.sendMark = tr.sendMark ∧
      ptpSends (completeIrecvs tr req sources).1 = [] := by
  induction sources generalizing tr req with
  | nil => exact ⟨rfl, rfl⟩
  | cons source sources ih =>
    obtain ⟨hmark, hrecv⟩ := completeIrecv_keeps tr req source
    obtain ⟨hmarks, hrecvs⟩ := ih (completeIrecv tr req source).2 (req + 1)
    refine ⟨hmarks.trans hmark, ?_⟩
    rw [completeIrecvs, ptpSends_append, hrecv, hrecvs]
    rfl

/-- A wait: what completes its receives stands between two records. -/
theorem ptpSends_wait {entered left : Record} {recvs : List Record}
    (hentered : akyPtpSend ∉ [entered].map Record.type) (hrecvs : ptpSends recvs = [])
    (hleft : akyPtpSend ∉ [left].map Record.type) :
    ptpSends (entered :: recvs ++ [left]) = [] := by
  rw [List.cons_append, ← List.singleton_append, ptpSends_append, ptpSends_append,
    ptpSends_eq_nil hentered, hrecvs, ptpSends_eq_nil hleft]
  rfl

theorem mpiWait_keeps (tr : Library) (request : Ptr) (source : Int32) :
    (mpiWait tr request source).2.sendMark = tr.sendMark ∧
      ptpSends (mpiWait tr request source).1 = [] := by
  unfold mpiWait
  by_cases hsent : akyCheckIsend tr request ≠ 0
  · obtain ⟨hmark, hrecvs⟩ := completeIrecv_keeps (akyRemoveIsend tr request) request source
    simp only [if_pos hsent]
    exact ⟨hmark, ptpSends_wait (show akyPtpSend ∉ [mpiWaitIn] by decide) hrecvs
      (show akyPtpSend ∉ [mpiWaitOut] by decide)⟩
  · obtain ⟨hmark, hrecvs⟩ := completeIrecv_keeps tr request source
    simp only [if_neg hsent]
    exact ⟨hmark, ptpSends_wait (show akyPtpSend ∉ [mpiWaitIn] by decide) hrecvs
      (show akyPtpSend ∉ [mpiWaitOut] by decide)⟩

/-- **A call that sends** records the next mark and takes it. -/
theorem run_sends {c : Wrapped} {b : Bracket} (h : c.sends = some b) (tr : Library) :
    Marks b tr.sendMark (c.run tr).1 ∧ (c.run tr).2.sendMark = tr.sendMark + 1 := by
  cases c with
  | call c =>
    cases c with
    | bsend s | ibsend s | irsend s | isend s request | issend s | rsend s | send s | ssend s =>
      cases h
      exact ⟨marks_send tr s rfl rfl (by decide +kernel) (by decide +kernel), rfl⟩
    | _ => cases h
  | _ => cases h

/-- **Any other call** leaves it alone, and records no message that is sent. -/
theorem run_other {c : Wrapped} (h : c.sends = none) (tr : Library) :
    (c.run tr).2.sendMark = tr.sendMark ∧ ptpSends (c.run tr).1 = [] := by
  cases c with
  | init => exact ⟨rfl, ptpSends_eq_nil (show akyPtpSend ∉ [mpiInit] by decide)⟩
  | abort => exact ⟨rfl, ptpSends_eq_nil (show akyPtpSend ∉ [mpiAbortIn, mpiAbortOut] by decide)⟩
  | finalize =>
    exact ⟨rfl, ptpSends_eq_nil (show akyPtpSend ∉ [mpiFinalizeIn, mpiFinalizeOut] by decide)⟩
  | call c =>
    cases c with
    | plain b => exact ⟨rfl, ptpSends_eq_nil (ptpSends_brackets b.1 b.2)⟩
    | getProcessorName => exact ⟨rfl, rfl⟩
    | bcast comm count tsize root =>
      exact ⟨rfl, ptpSends_collective (show akyPtpSend ∉ [mpiBcastIn, aky1taSend] by decide)
        (show akyPtpSend ∉ [mpiBcastIn] by decide) (show akyPtpSend ∉ [aky1taRecv] by decide)
        (show akyPtpSend ∉ [mpiBcastOut] by decide)⟩
    | gather comm sendcnt root =>
      exact ⟨rfl, ptpSends_collective (show akyPtpSend ∉ [mpiGatherIn] by decide)
        (show akyPtpSend ∉ [mpiGatherIn, akyNt1Send] by decide)
        (show akyPtpSend ∉ [akyNt1Recv] by decide) (show akyPtpSend ∉ [mpiGatherOut] by decide)⟩
    | reduce comm count tsize root =>
      exact ⟨rfl, ptpSends_collective (show akyPtpSend ∉ [mpiReduceIn] by decide)
        (show akyPtpSend ∉ [mpiReduceIn, akyAt1Send] by decide)
        (show akyPtpSend ∉ [akyAt1Recv] by decide) (show akyPtpSend ∉ [mpiReduceOut] by decide)⟩
    | scatter comm sendcnt tsize root =>
      exact ⟨rfl, ptpSends_collective (show akyPtpSend ∉ [mpiScatterIn, aky1tnSend] by decide)
        (show akyPtpSend ∉ [mpiScatterIn] by decide) (show akyPtpSend ∉ [aky1tnRecv] by decide)
        (show akyPtpSend ∉ [mpiScatterOut] by decide)⟩
    | recv comm count tsize source =>
      exact ⟨rfl, ptpSends_eq_nil
        (show akyPtpSend ∉ [mpiRecvIn, akyPtpRecv, mpiRecvOut] by decide)⟩
    | irecv count tsize request =>
      exact ⟨rfl, ptpSends_eq_nil (show akyPtpSend ∉ [mpiIrecvIn, mpiIrecvOut] by decide)⟩
    | wait request source => exact mpiWait_keeps tr request source
    | waitall array sources =>
      obtain ⟨hmark, hrecvs⟩ := completeIrecvs_keeps tr array sources
      exact ⟨hmark, ptpSends_wait (show akyPtpSend ∉ [mpiWaitallIn] by decide) hrecvs
        (show akyPtpSend ∉ [mpiWaitallOut] by decide)⟩
    | waitany array index source =>
      obtain ⟨hmark, hrecvs⟩ := completeIrecv_keeps tr (array + index.toInt) source
      exact ⟨hmark, ptpSends_wait (show akyPtpSend ∉ [mpiWaitanyIn] by decide) hrecvs
        (show akyPtpSend ∉ [mpiWaitanyOut] by decide)⟩
    | _ => cases h

/-! ## Calls of a process -/

/-- A call that was made, with its records, and the mark before and after it. -/
structure Made where
  call : Wrapped
  mark : UInt64
  records : List Record
  next : UInt64

/-- The calls of a process. -/
def made (tr : Library) : List Wrapped → List Made
  | [] => []
  | c :: cs => ⟨c, tr.sendMark, (c.run tr).1, (c.run tr).2.sendMark⟩ :: made (c.run tr).2 cs

def Made.isSend (m : Made) : Bool := m.call.sends.isSome

/-- The sends among some calls. -/
def sendCount (cs : List Wrapped) : Nat := cs.countP fun c => c.sends.isSome

theorem made_calls (tr : Library) (cs : List Wrapped) : (made tr cs).map Made.call = cs := by
  induction cs generalizing tr with
  | nil => rfl
  | cons c cs ih => rw [made, List.map_cons, ih]

/-- The records are those of a run of the calls. -/
theorem made_runCalls (tr : Library) (cs : List Call) :
    (made tr (cs.map .call)).map Made.records = runCalls tr cs := by
  induction cs generalizing tr with
  | nil => rfl
  | cons c cs ih =>
    rw [List.map_cons, made, List.map_cons, ih]
    rfl

/-- One call, and the mark after it. -/
theorem made_step {tr : Library} {n : Nat} (hmark : tr.sendMark.toNat = n) (c : Wrapped)
    (hroom : n + sendCount [c] < 2 ^ 64) : (c.run tr).2.sendMark.toNat = n + sendCount [c] := by
  cases hc : c.sends with
  | none => rw [(run_other hc tr).1, hmark]; simp [sendCount, hc]
  | some b =>
    have hone : sendCount [c] = 1 := by simp [sendCount, hc]
    rw [hone] at hroom ⊢
    rw [(run_sends hc tr).2, UInt64.toNat_add, hmark]
    exact Nat.mod_eq_of_lt hroom

theorem sendCount_cons (c : Wrapped) (cs : List Wrapped) :
    sendCount (c :: cs) = sendCount [c] + sendCount cs := by
  rw [← List.singleton_append, sendCount, List.countP_append]
  rfl

/-- **The sends of a process from a mark on.** -/
theorem made_numbered {cs : List Wrapped} {tr : Library} {n : Nat} (hmark : tr.sendMark.toNat = n)
    (hroom : n + sendCount cs < 2 ^ 64) {k : Nat} {m : Made}
    (hm : ((made tr cs).filter Made.isSend)[k]? = some m) :
    ∃ b mark, m.call.sends = some b ∧ Marks b mark m.records ∧ mark.toNat = n + k := by
  induction cs generalizing tr n k with
  | nil => exact absurd hm (by simp [made])
  | cons c cs ih =>
    rw [sendCount_cons] at hroom
    have hnext := made_step hmark c (by omega)
    rw [made] at hm
    cases hc : c.sends with
    | none =>
      have hnone : sendCount [c] = 0 := by simp [sendCount, hc]
      rw [List.filter_cons_of_neg (by simp [Made.isSend, hc])] at hm
      rw [hnone] at hnext hroom
      exact ih hnext (by omega) hm
    | some b =>
      have hone : sendCount [c] = 1 := by simp [sendCount, hc]
      rw [List.filter_cons_of_pos (by simp [Made.isSend, hc])] at hm
      rw [hone] at hnext hroom
      cases k with
      | zero =>
        cases hm
        exact ⟨b, tr.sendMark, hc, (run_sends hc tr).1, hmark⟩
      | succ k =>
        obtain ⟨b', mark, hb', hmarks, hk⟩ := ih hnext (by omega) hm
        exact ⟨b', mark, hb', hmarks, by omega⟩

/-- The other calls keep the mark. -/
theorem made_other {cs : List Wrapped} {tr : Library} {m : Made} (hm : m ∈ made tr cs)
    (hother : m.call.sends = none) : m.next = m.mark ∧ ptpSends m.records = [] := by
  induction cs generalizing tr with
  | nil => exact absurd hm (by simp [made])
  | cons c cs ih =>
    rcases List.mem_cons.mp hm with rfl | hm
    · exact run_other hother tr
    · exact ih hm

/-- **The marks of a process number its sends.** The send number `k` records `k` as it is entered
    and right after it in its message, which it records once; any other call keeps the mark, and
    records no such message. -/
theorem sends_numbered (cs : List Wrapped) (hsends : sendCount cs < 2 ^ 64) :
    (made Library.init cs).map Made.call = cs ∧
      (∀ k m, ((made Library.init cs).filter Made.isSend)[k]? = some m →
        ∃ b mark, m.call.sends = some b ∧ Marks b mark m.records ∧ mark.toNat = k) ∧
      ∀ m ∈ made Library.init cs, m.call.sends = none →
        m.next = m.mark ∧ ptpSends m.records = [] := by
  refine ⟨made_calls _ _, ?_, fun m hm hother => made_other hm hother⟩
  intro k m hm
  obtain ⟨b, mark, hb, hmarks, hk⟩ :=
    @made_numbered cs Library.init 0 rfl (by rwa [Nat.zero_add]) k m hm
  exact ⟨b, mark, hb, hmarks, by rw [hk, Nat.zero_add]⟩

/-- A send, a receive from another process, and a send that is waited for. -/
def sendRecvIsend : List Wrapped :=
  let comm : Comm := { rank := 0, size := 2, world := id }
  let s : Sending := { comm := comm, dest := 1, count := 1, tsize := 4 }
  [.init, .call (.send s), .call (.recv comm 1 4 1), .call (.isend s 0), .call (.wait 0 0),
    .finalize]

theorem sends_numbered_sendRecvIsend :
    ((made Library.init sendRecvIsend).filter Made.isSend).length = 2 ∧
      ∀ k m, ((made Library.init sendRecvIsend).filter Made.isSend)[k]? = some m →
        ∃ b mark, m.call.sends = some b ∧ Marks b mark m.records ∧ mark.toNat = k :=
  ⟨by decide +kernel, (sends_numbered sendRecvIsend (by decide)).2.1⟩

end Tracer
end Akypuera

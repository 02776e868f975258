import Akypuera.System.Streams

/-!
# What MPI does with request variables

A wrapper sees the *address* of a request variable and the statuses MPI fills in. Which
request the variable holds, and when it completes, is MPI's business, and it is stated here:
a process is a sequence of operations (`Op`), each of which posts requests or completes them
(`Proc.held`), and each of which is some wrapped call with the answers MPI gives
(`Op.call`).

Besides, the state counts what the library's memory depends on, in terms of the calls alone:
`noted` are the variables an `MPI_Irecv` was given since they were last given to a wait, and
`isends` are the marks of the `MPI_Isend`s into a variable since it was last given to
`MPI_Wait`. That **this is what the two search trees hold** is `Agrees`, and `messages_eq` is
what follows for the records.
-/

set_option autoImplicit false

namespace Akypuera
namespace System

open Code Converter Tracer Search

/-- The values MPI gives its constants. -/
structure Mpi where
  procNull : Int32
  anySource : Int32
  undefined : Int32

/-- What a request variable holds. A receive has a number, and the rank its message comes
    from, unless it names `MPI_PROC_NULL`. -/
inductive Held where
  | null
  | isend (mark : UInt64)
  | receive (number : Nat) (source : Option Int32)
  | other
  deriving DecidableEq

/-- The sends. -/
inductive SendKind where
  | bsend
  | ibsend
  | irsend
  | isend
  | issend
  | rsend
  | send
  | ssend
  deriving DecidableEq

/-- `MPI_Sendrecv` and `MPI_Sendrecv_replace`. -/
inductive ExchangeKind where
  | sendrecv
  | sendrecvReplace
  deriving DecidableEq

/-- `MPI_Start` and `MPI_Startall`. -/
inductive StartKind where
  | start
  | startall
  deriving DecidableEq

/-- The completions whose wrappers look at no request. -/
inductive TestKind where
  | test
  | testall
  | testany
  | testsome
  | waitsome
  deriving DecidableEq

/-- A persistent request that is started. -/
inductive Started where
  | send (dest : Option Int32) (request : Ptr)
  | receive (source : Option Int32) (request : Ptr)

/-- What a process does about messages. `source` and `dest` are ranks, or `none` for
    `MPI_PROC_NULL`; `blank` is what a status says of a request that is no receive. -/
inductive Op where
  | send (kind : SendKind) (s : Sending) (request : Ptr)
  | recv (comm : Comm) (count tsize : Int32) (source : Option Int32)
  | irecv (count tsize : Int32) (source : Option Int32) (request : Ptr)
  | exchange (kind : ExchangeKind) (dest source : Option Int32)
  | start (kind : StartKind) (started : List Started)
  | wait (request : Ptr) (blank : Ptr → Int32)
  | waitall (arrayOfRequests : Ptr) (count : Nat) (blank : Ptr → Int32)
  | waitany (arrayOfRequests : Ptr) (index : Int32) (blank : Ptr → Int32)
  | waitanyUndefined (arrayOfRequests : Ptr)
  | test (kind : TestKind) (completed : List Ptr)

/-- The request variables, and what the calls so far did to them. -/
structure Proc where
  held : Ptr → Held
  receives : Nat
  sends : UInt64
  noted : Ptr → Bool
  isends : Ptr → List UInt64

/-- A process before its first call. -/
def Proc.init : Proc where
  held _ := .null
  receives := 0
  sends := 0
  noted _ := false
  isends _ := []

namespace Proc

/-- A request is put into a variable. -/
def post (st : Proc) (request : Ptr) (h : Held) : Proc :=
  { st with held := Function.update st.held request h }

/-- Requests complete, and their variables become `MPI_REQUEST_NULL`. -/
def complete (st : Proc) (requests : List Ptr) : Proc :=
  { st with held := fun p => if p ∈ requests then .null else st.held p }

/-- Variables are given to a wait. -/
def look (st : Proc) (requests : List Ptr) : Proc :=
  { st with noted := fun p => if p ∈ requests then false else st.noted p }

/-- One receive is posted. -/
def receive (st : Proc) : Proc := { st with receives := st.receives + 1 }

/-- A persistent request is started. -/
def start (st : Proc) : Started → Proc
  | .send _ request => st.post request .other
  | .receive source request => (st.post request (.receive st.receives source)).receive

/-- `MPI_SOURCE` in the status of a completed request. -/
def source (st : Proc) (mpi : Mpi) (blank : Ptr → Int32) (p : Ptr) : Int32 :=
  match st.held p with
  | .null => mpi.anySource
  | .receive _ source => source.getD mpi.procNull
  | .isend _ | .other => blank p

/-- The message from a real process that a variable waits for. -/
def real (st : Proc) (p : Ptr) : Option (Nat × Int32) :=
  match st.held p with
  | .receive number (some source) => some (number, source)
  | _ => none

end Proc

/-- The variables of an array. -/
def arrayOf (base : Int) (count : Nat) : List Ptr :=
  (List.range count).map fun i : Nat => base + (i : Int)

namespace Op

/-- The requests a call completes. -/
def completes : Op → List Ptr
  | .wait request _ => [request]
  | .waitall base count _ => arrayOf base count
  | .waitany base index _ => [base + index.toInt]
  | .test _ completed => completed.dedup
  | _ => []

/-- The variables a wrapper looks at, with the source in each one's status. -/
def looks (mpi : Mpi) (st : Proc) : Op → List (Ptr × Int32)
  | .wait request blank => [(request, st.source mpi blank request)]
  | .waitall base count blank => (arrayOf base count).map fun p => (p, st.source mpi blank p)
  | .waitany base index blank =>
      [(base + index.toInt, st.source mpi blank (base + index.toInt))]
  | .waitanyUndefined base => [(base + mpi.undefined.toInt, mpi.anySource)]
  | _ => []

/-- The state after an operation. -/
def step (mpi : Mpi) (st : Proc) : Op → Proc
  | .send kind _ request =>
      let st' := { st with sends := st.sends + 1 }
      match kind with
      | .isend =>
          { st'.post request (.isend st.sends) with
            isends := Function.update st.isends request (st.isends request ++ [st.sends]) }
      | .ibsend | .irsend | .issend => st'.post request .other
      | .bsend | .rsend | .send | .ssend => st'
  | .recv _ _ _ _ => st.receive
  | .irecv _ _ source request =>
      { (st.post request (.receive st.receives source)).receive with
        noted := Function.update st.noted request true }
  | .exchange _ _ _ => st.receive
  | .start _ started => started.foldl Proc.start st
  | .wait request blank =>
      let op := Op.wait request blank
      { (st.complete op.completes).look ((op.looks mpi st).map Prod.fst) with
        isends := Function.update st.isends request [] }
  | op => (st.complete op.completes).look ((op.looks mpi st).map Prod.fst)

/-- The call of a send. -/
def sendCall (s : Sending) (request : Ptr) : SendKind → Call
  | .bsend => .bsend s
  | .ibsend => .ibsend s
  | .irsend => .irsend s
  | .isend => .isend s request
  | .issend => .issend s
  | .rsend => .rsend s
  | .send => .send s
  | .ssend => .ssend s

/-- The wrappers of exchanges. -/
def exchangeCall : ExchangeKind → Call
  | .sendrecv => .plain ⟨mpiSendrecv, by simp [plainCalls]⟩
  | .sendrecvReplace => .plain ⟨mpiSendrecvReplace, by simp [plainCalls]⟩

/-- The wrappers of starts. -/
def startCall : StartKind → Call
  | .start => .plain ⟨mpiStart, by simp [plainCalls]⟩
  | .startall => .plain ⟨mpiStartall, by simp [plainCalls]⟩

/-- The wrappers of tests. -/
def testCall : TestKind → Call
  | .test => .plain ⟨mpiTest, by simp [plainCalls]⟩
  | .testall => .plain ⟨mpiTestall, by simp [plainCalls]⟩
  | .testany => .plain ⟨mpiTestany, by simp [plainCalls]⟩
  | .testsome => .plain ⟨mpiTestsome, by simp [plainCalls]⟩
  | .waitsome => .plain ⟨mpiWaitsome, by simp [plainCalls]⟩

/-- **The wrapped call of an operation**, with MPI's answers. -/
def call (mpi : Mpi) (st : Proc) : Op → Call
  | .send kind s request => sendCall s request kind
  | .recv comm count tsize source => .recv comm count tsize (source.getD mpi.procNull)
  | .irecv count tsize _ request => .irecv count tsize request
  | .exchange kind _ _ => exchangeCall kind
  | .start kind _ => startCall kind
  | .wait request blank => .wait request (st.source mpi blank request)
  | .waitall base count blank =>
      .waitall base ((arrayOf base count).map (st.source mpi blank))
  | .waitany base index blank => .waitany base index (st.source mpi blank (base + index.toInt))
  | .waitanyUndefined base => .waitany base mpi.undefined mpi.anySource
  | .test kind _ => testCall kind

end Op

/-! ## The library's memory -/

/-- The library remembers what the calls did. -/
structure Agrees (st : Proc) (tr : Library) : Prop where
  irecv : ∀ p, (tr.irecv.tfind p).isSome = st.noted p
  isend : ∀ p, tr.isend.tfind p = (st.isends p).head?.map fun mark => mark.toUInt32.toInt32
  sends : tr.sendMark = st.sends

theorem agrees_init : Agrees Proc.init Library.init := ⟨fun _ => rfl, fun _ => rfl, rfl⟩

theorem completeIrecv_fst (tr : Library) (req : Ptr) (source : Int32) :
    (completeIrecv tr req source).1 =
      if (tr.irecv.tfind req).isSome then [rstEventI akyPtpRecv source.toUInt32] else [] := by
  unfold completeIrecv akyCheckIrecv
  by_cases h : (tr.irecv.tfind req).isSome = true
  · rw [if_pos (akyCheck_ne_zero.mpr h), if_pos h]
  · rw [if_neg fun hne => h (akyCheck_ne_zero.mp hne), if_neg h]

theorem completeIrecv_snd (tr : Library) (req : Ptr) (source : Int32) :
    (completeIrecv tr req source).2 = akyRemoveIrecv tr req := by
  unfold completeIrecv akyCheckIrecv
  by_cases h : akyCheck req tr.irecv ≠ 0
  · rw [if_pos h]
  · -- a request that is not there is removed in vain
    have hnone : tr.irecv req = none := by
      have hsome := mt akyCheck_ne_zero.mpr h
      simpa [Tree.tfind] using hsome
    rw [if_neg h, akyRemoveIrecv, akyRemove, Tree.tdelete, ← hnone, Function.update_eq_self]

theorem arrayOf_succ (base : Int) (count : Nat) :
    arrayOf base (count + 1) = base :: arrayOf (base + 1) count := by
  unfold arrayOf
  rw [List.range_succ_eq_map, List.map_cons, List.map_map]
  refine congrArg₂ _ (by simp) (List.map_congr_left fun i _ => ?_)
  show base + ((i + 1 : Nat) : Int) = base + 1 + (i : Int)
  push_cast
  ring

theorem mem_arrayOf {base p : Int} {count : Nat} :
    p ∈ arrayOf base count ↔ base ≤ p ∧ p < base + count := by
  unfold arrayOf
  rw [List.mem_map]
  constructor
  · rintro ⟨i, hi, rfl⟩
    have hi := List.mem_range.mp hi
    omega
  · intro h
    exact ⟨(p - base).toNat, List.mem_range.mpr (by omega), by omega⟩

theorem completeIrecvs_cons (tr : Library) (req : Ptr) (source : Int32) (sources : List Int32) :
    completeIrecvs tr req (source :: sources) =
      ((completeIrecv tr req source).1 ++
          (completeIrecvs (completeIrecv tr req source).2 (req + 1) sources).1,
        (completeIrecvs (completeIrecv tr req source).2 (req + 1) sources).2) := rfl

/-- The loop of `MPI_Waitall` records the tracked receives and forgets them. -/
theorem completeIrecvs_eq (f : Ptr → Int32) (count : Nat) (base : Int) (tr : Library) :
    completeIrecvs tr base ((arrayOf base count).map f) =
      (((arrayOf base count).filter fun p => (tr.irecv.tfind p).isSome).map
          fun p => rstEventI akyPtpRecv (f p).toUInt32,
        { tr with irecv := fun p => if p ∈ arrayOf base count then none else tr.irecv p }) := by
  induction count generalizing base tr with
  | zero => simp [arrayOf, completeIrecvs]
  | succ count ih =>
    have hnot : base ∉ arrayOf (base + 1) count := fun h => by
      have := (mem_arrayOf.mp h).1
      omega
    rw [arrayOf_succ, List.map_cons, completeIrecvs_cons, completeIrecv_snd, completeIrecv_fst, ih]
    refine Prod.ext ?_ ?_
    · -- removing the first request does not touch the others
      have hrest : (arrayOf (base + 1) count).filter
          (fun p => ((akyRemoveIrecv tr base).irecv.tfind p).isSome) =
            (arrayOf (base + 1) count).filter fun p => (tr.irecv.tfind p).isSome := by
        apply List.filter_congr
        intro p hp
        have hne : p ≠ base := fun h => hnot (h ▸ hp)
        rw [akyRemoveIrecv, akyRemove, Tree.tfind_tdelete_ne _ hne]
      simp only [hrest]
      by_cases h : (tr.irecv.tfind base).isSome = true
      · rw [if_pos h, List.filter_cons_of_pos (p := fun p => (tr.irecv.tfind p).isSome) h]
        rfl
      · rw [if_neg h, List.filter_cons_of_neg (p := fun p => (tr.irecv.tfind p).isSome) h]
        rfl
    · simp only [akyRemoveIrecv, akyRemove, Tree.tdelete]
      congr 1
      funext p
      by_cases hp : p = base
      · subst hp
        simp [hnot]
      · simp [hp]

/-- The message records among some records. -/
def linkRecords (rs : List Record) : List Record := rs.filter fun r => (arm r.type).isLink

/-- The messages a call records. -/
def Op.messages (mpi : Mpi) (st : Proc) : Op → List Record
  | .send _ s _ => [s.message st.sends]
  | .recv comm _ _ source =>
      [rstEventI akyPtpRecv (akyTranslateRank comm (source.getD mpi.procNull)).toUInt32]
  | op => ((op.looks mpi st).filter fun x => st.noted x.1).map
      fun x => rstEventI akyPtpRecv x.2.toUInt32

/-- The records of one type. -/
def ofType (type : Nat) (rs : List Record) : List Record := rs.filter fun r => r.type = type

/-- Those of a message type are among the message records. -/
theorem ofType_linkRecords {type : Nat} (h : (arm type).isLink = true) (rs : List Record) :
    ofType type (linkRecords rs) = ofType type rs := by
  unfold ofType linkRecords
  rw [List.filter_filter]
  apply List.filter_congr
  intro r _
  by_cases hr : r.type = type
  · simp [hr, h]
  · simp [hr]

theorem not_isLink_of_opens {r : Record} (h : Opens r) : (arm r.type).isLink = false := by
  have hp := h.pushes
  cases ha : arm r.type <;> simp [ha, Arm.pushes, Arm.isLink] at hp ⊢

theorem linkRecords_bracket {opening closing : Record} (messages : List Record)
    (ho : Opens opening) (hm : ∀ m ∈ messages, Message m) (hc : arm closing.type = .popState) :
    linkRecords (opening :: messages ++ [closing]) = messages := by
  have hopen := not_isLink_of_opens ho
  have hclose : (arm closing.type).isLink = false := by rw [hc]; rfl
  unfold linkRecords
  rw [List.cons_append, List.filter_cons_of_neg (by simp [hopen]), List.filter_append,
    List.filter_eq_self.mpr fun m h => (hm m h).isLink, List.filter_cons_of_neg (by simp [hclose])]
  simp

theorem linkRecords_none {opening closing : Record} (ho : Opens opening)
    (hc : arm closing.type = .popState) : linkRecords [opening, closing] = [] :=
  linkRecords_bracket [] ho (fun m h => absurd h (by simp)) hc

theorem linkRecords_one {opening m closing : Record} (ho : Opens opening) (hm : Message m)
    (hc : arm closing.type = .popState) : linkRecords [opening, m, closing] = [m] :=
  linkRecords_bracket [m] ho
    (fun m' h => by rw [List.mem_singleton.mp h]; exact hm) hc

theorem linkRecords_send (tr : Library) {inRecord : Record} {outType : Nat} (s : Sending)
    (ho : Opens inRecord) (hc : arm outType = .popState) :
    linkRecords (Tracer.send tr inRecord outType s).1 = [s.message tr.sendMark] :=
  linkRecords_one ho (message akyPtpSend (by simp)) hc

theorem linkRecords_plain (b : { b : Bracket // b ∈ plainCalls }) :
    linkRecords b.1.records = [] := by
  obtain ⟨hin, hout⟩ := arm_plainCalls b.1 b.2
  exact linkRecords_none (opens_plain hin [] []) hout

/-- What `MPI_Wait` records first. -/
def waitEntered (tr : Library) (request : Ptr) : Record :=
  if akyCheckIsend tr request ≠ 0 then
    rstEventL mpiWaitIn
      (if akyCheckIsend tr request = -1 then 0 else ofInt (akyCheckIsend tr request))
  else rstEvent mpiWaitIn

/-- `MPI_Wait` forgets the request in both trees. -/
theorem mpiWait_eq (tr : Library) (request : Ptr) (source : Int32) :
    mpiWait tr request source =
      (waitEntered tr request ::
          (if (tr.irecv.tfind request).isSome then [rstEventI akyPtpRecv source.toUInt32] else []) ++
          [rstEvent mpiWaitOut],
        akyRemoveIrecv (akyRemoveIsend tr request) request) := by
  unfold mpiWait waitEntered
  by_cases h : akyCheckIsend tr request ≠ 0
  · simp only [if_pos h, completeIrecv_fst, completeIrecv_snd]
    rfl
  · have hnone : tr.isend request = none := by
      have hsome := mt akyCheck_ne_zero.mpr h
      simpa [Tree.tfind] using hsome
    have hsame : akyRemoveIsend tr request = tr := by
      rw [akyRemoveIsend, akyRemove, Tree.tdelete, ← hnone, Function.update_eq_self]
    simp only [if_neg h, completeIrecv_fst, completeIrecv_snd, hsame]

theorem mpiWaitall_eq (tr : Library) (base : Ptr) (count : Nat) (f : Ptr → Int32) :
    mpiWaitall tr base ((arrayOf base count).map f) =
      (rstEvent mpiWaitallIn ::
          (((arrayOf base count).filter fun p => (tr.irecv.tfind p).isSome).map
            fun p => rstEventI akyPtpRecv (f p).toUInt32) ++ [rstEvent mpiWaitallOut],
        { tr with irecv := fun p => if p ∈ arrayOf base count then none else tr.irecv p }) := by
  unfold mpiWaitall
  rw [completeIrecvs_eq]

theorem mpiWaitany_eq (tr : Library) (base : Ptr) (index source : Int32) :
    mpiWaitany tr base index source =
      (rstEvent mpiWaitanyIn ::
          (if (tr.irecv.tfind (base + index.toInt)).isSome then
            [rstEventI akyPtpRecv source.toUInt32] else []) ++ [rstEvent mpiWaitanyOut],
        akyRemoveIrecv tr (base + index.toInt)) := by
  simp only [mpiWaitany, completeIrecv_fst, completeIrecv_snd]

theorem opens_waitEntered (tr : Library) (request : Ptr) : Opens (waitEntered tr request) := by
  unfold waitEntered
  split <;> exact opens_plain (arm_opening mpiWaitIn (by simp)) _ _

theorem irecv_remove (tr : Library) (request : Ptr) : (akyRemoveIrecv tr request) =
    { tr with irecv := fun p => if p ∈ [request] then none else tr.irecv p } := by
  unfold akyRemoveIrecv akyRemove Tree.tdelete
  congr 1
  funext p
  by_cases hp : p = request <;> simp [hp]

theorem looks_waitall (mpi : Mpi) (st : Proc) (base : Ptr) (count : Nat) (blank : Ptr → Int32) :
    ((Op.waitall base count blank).looks mpi st).map Prod.fst = arrayOf base count := by
  rw [Op.looks, List.map_map]
  exact List.map_id _

theorem step_waitall (mpi : Mpi) (st : Proc) (base : Ptr) (count : Nat) (blank : Ptr → Int32) :
    Op.step mpi st (.waitall base count blank) =
      (st.complete (arrayOf base count)).look (arrayOf base count) :=
  congrArg (st.complete (arrayOf base count)).look (looks_waitall mpi st base count blank)

theorem start_keeps (started : List Started) (st : Proc) :
    (started.foldl Proc.start st).noted = st.noted ∧
      (started.foldl Proc.start st).isends = st.isends ∧
      (started.foldl Proc.start st).sends = st.sends := by
  induction started generalizing st with
  | nil => exact ⟨rfl, rfl, rfl⟩
  | cons s started ih =>
    obtain ⟨hn, hi, hs⟩ := ih (st.start s)
    cases s <;> exact ⟨hn, hi, hs⟩

section
variable {mpi : Mpi} {st : Proc} {tr : Library} (h : Agrees st tr)
include h

theorem messages_send (kind : SendKind) (s : Sending) (request : Ptr) :
    linkRecords ((Op.sendCall s request kind).run tr).1 = [s.message st.sends] := by
  rw [← h.sends]
  cases kind with
  | isend =>
    exact linkRecords_send tr s (opens_send (by decide +kernel) _ _) (arm_closing _ (by simp))
  | send =>
    exact linkRecords_send tr s (opens_send (by decide +kernel) _ _) (arm_closing _ (by simp))
  | _ =>
    exact linkRecords_send tr s (opens_plain (arm_opening _ (by simp)) _ _)
      (arm_closing _ (by simp))

theorem messages_waitany (base : Ptr) (index source : Int32) :
    linkRecords (mpiWaitany tr base index source).1 =
      ([(base + index.toInt, source)].filter fun x => st.noted x.1).map
        fun x => rstEventI akyPtpRecv x.2.toUInt32 := by
  have ho : Opens (rstEvent mpiWaitanyIn) := opens_plain (arm_opening _ (by simp)) [] []
  have hc : arm (rstEvent mpiWaitanyOut).type = .popState := arm_closing mpiWaitanyOut (by simp)
  rw [mpiWaitany_eq, h.irecv]
  refine (linkRecords_bracket _ ho ?_ hc).trans ?_
  · intro m hm
    split at hm
    · rw [List.mem_singleton.mp hm]
      exact message akyPtpRecv (by simp)
    · exact absurd hm (by simp)
  · by_cases hn : st.noted (base + index.toInt) = true <;> simp [hn]

/-- **What a call records of messages**, in terms of the calls before it. -/
theorem messages_eq (op : Op) :
    linkRecords ((op.call mpi st).run tr).1 = op.messages mpi st := by
  cases op with
  | send kind s request => exact messages_send h kind s request
  | recv comm count tsize source =>
    have hin : arm mpiRecvIn = .pushStateRecv := by decide +kernel
    exact linkRecords_one (opens_recv hin _) (message akyPtpRecv (by simp))
      (arm_closing mpiRecvOut (by simp))
  | irecv count tsize source request =>
    have hin : arm mpiIrecvIn = .pushStateRecv := by decide +kernel
    exact linkRecords_none (opens_recv hin _) (arm_closing mpiIrecvOut (by simp))
  | exchange kind dest source => cases kind <;> exact linkRecords_plain _
  | start kind started => cases kind <;> exact linkRecords_plain _
  | test kind completed => cases kind <;> exact linkRecords_plain _
  | wait request blank =>
    rw [Op.call, Call.run, mpiWait_eq, h.irecv]
    refine (linkRecords_bracket _ (opens_waitEntered tr request) ?_
      (arm_closing mpiWaitOut (by simp))).trans ?_
    · intro m hm
      split at hm
      · rw [List.mem_singleton.mp hm]
        exact message akyPtpRecv (by simp)
      · exact absurd hm (by simp)
    · by_cases hn : st.noted request = true <;> simp [Op.messages, Op.looks, hn]
  | waitall base count blank =>
    have ho : Opens (rstEvent mpiWaitallIn) := opens_plain (arm_opening _ (by simp)) [] []
    have hc : arm (rstEvent mpiWaitallOut).type = .popState :=
      arm_closing mpiWaitallOut (by simp)
    rw [Op.call, Call.run, mpiWaitall_eq]
    refine (linkRecords_bracket _ ho ?_ hc).trans ?_
    · intro m hm
      obtain ⟨p, _, rfl⟩ := List.mem_map.mp hm
      exact message akyPtpRecv (by simp)
    · simp only [h.irecv, Op.messages, Op.looks, List.filter_map, List.map_map, Function.comp_def]
  | waitany base index blank => exact messages_waitany h base index _
  | waitanyUndefined base => exact messages_waitany h base mpi.undefined _

theorem agrees_sends {tr' : Library} {st' : Proc} (hn : st'.noted = st.noted)
    (hi : st'.isends = st.isends) (hs : st'.sends = st.sends + 1)
    (ht : tr' = { tr with sendMark := tr.sendMark + 1 }) : Agrees st' tr' := by
  subst ht
  exact ⟨fun p => by rw [hn]; exact h.irecv p, fun p => by rw [hi]; exact h.isend p,
    by rw [hs, ← h.sends]⟩

/-- A call the library takes no note of. -/
theorem agrees_plain {st' : Proc} (hn : st'.noted = st.noted) (hi : st'.isends = st.isends)
    (hs : st'.sends = st.sends) : Agrees st' tr :=
  ⟨fun p => by rw [hn]; exact h.irecv p, fun p => by rw [hi]; exact h.isend p, by rw [hs, h.sends]⟩

/-- A wait that looks at some requests. -/
theorem agrees_look (st' : Proc) (requests : List Ptr) (hn : st'.noted = st.noted)
    (hi : st'.isends = st.isends) (hs : st'.sends = st.sends) :
    Agrees (st'.look requests)
      { tr with irecv := fun p => if p ∈ requests then none else tr.irecv p } := by
  refine ⟨?_, ?_, ?_⟩
  · intro p
    by_cases hp : p ∈ requests
    · simp [Proc.look, Tree.tfind, hp]
    · simpa [Proc.look, Tree.tfind, hp, hn] using h.irecv p
  · intro p
    simpa [Proc.look, hi] using h.isend p
  · simpa [Proc.look, hs] using h.sends

/-- **The library keeps remembering.** -/
theorem agrees_step (op : Op) : Agrees (op.step mpi st) ((op.call mpi st).run tr).2 := by
  cases op with
  | send kind s request =>
    cases kind with
    | isend =>
      refine ⟨h.irecv, fun p => ?_, congrArg (· + 1) h.sends⟩
      show (tr.isend.tsearch request tr.sendMark.toUInt32.toInt32).tfind p = _
      by_cases hp : p = request
      · subst hp
        rw [Tree.tfind_tsearch_self, h.isend, h.sends]
        simp only [Op.step, Function.update_self]
        cases hm : st.isends p <;> rfl
      · rw [Tree.tfind_tsearch_ne _ _ hp, h.isend]
        simp [Op.step, Proc.post, hp]
    | _ => exact agrees_sends h rfl rfl rfl rfl
  | recv comm count tsize source => exact agrees_plain h rfl rfl rfl
  | irecv count tsize source request =>
    refine ⟨fun p => ?_, h.isend, h.sends⟩
    show ((tr.irecv.tsearch request 1).tfind p).isSome = _
    by_cases hp : p = request
    · subst hp
      rw [Tree.tfind_tsearch_self]
      simp [Op.step]
    · rw [Tree.tfind_tsearch_ne _ _ hp, h.irecv]
      simp [Op.step, hp, Proc.post, Proc.receive]
  | exchange kind dest source => cases kind <;> exact agrees_plain h rfl rfl rfl
  | start kind started =>
    obtain ⟨hn, hi, hs⟩ := start_keeps started st
    cases kind <;> exact agrees_plain h hn hi hs
  | test kind completed =>
    have hn : (Op.step mpi st (.test kind completed)).noted = st.noted := by
      funext p
      simp [Op.step, Op.looks, Proc.look, Proc.complete]
    cases kind <;> exact agrees_plain h hn rfl rfl
  | wait request blank =>
    rw [Op.call, Call.run, mpiWait_eq, irecv_remove]
    have hlook := agrees_look h (st.complete [request]) [request] rfl rfl rfl
    refine ⟨hlook.irecv, fun p => ?_, hlook.sends⟩
    show (tr.isend.tdelete request).tfind p = _
    by_cases hp : p = request
    · subst hp
      rw [Tree.tfind_tdelete_self]
      simp [Op.step]
    · rw [Tree.tfind_tdelete_ne _ hp, h.isend]
      simp [Op.step, hp]
  | waitall base count blank =>
    rw [step_waitall, Op.call, Call.run, mpiWaitall_eq]
    exact agrees_look h (st.complete (arrayOf base count)) _ rfl rfl rfl
  | waitany base index blank =>
    rw [Op.call, Call.run, mpiWaitany_eq, irecv_remove]
    exact agrees_look h (st.complete [base + index.toInt]) [base + index.toInt] rfl rfl rfl
  | waitanyUndefined base =>
    rw [Op.call, Call.run, mpiWaitany_eq, irecv_remove]
    exact agrees_look h (st.complete []) [base + mpi.undefined.toInt] rfl rfl rfl

end

/-! ## Runs -/

/-- A call of a run: the state before it, and what it records. -/
structure Step where
  before : Proc
  op : Op
  records : List Record

/-- The calls of a process. -/
def run (mpi : Mpi) (st : Proc) (tr : Library) : List Op → List Step
  | [] => []
  | op :: ops =>
      { before := st, op := op, records := ((op.call mpi st).run tr).1 } ::
        run mpi (op.step mpi st) ((op.call mpi st).run tr).2 ops

/-- The same as the wrappers see them. -/
def calls (mpi : Mpi) (st : Proc) : List Op → List Call
  | [] => []
  | op :: ops => op.call mpi st :: calls mpi (op.step mpi st) ops

/-- A process from its first call on. -/
def history (mpi : Mpi) (ops : List Op) : List Step := run mpi Proc.init Library.init ops

theorem run_records (mpi : Mpi) (ops : List Op) (st : Proc) (tr : Library) :
    (run mpi st tr ops).map Step.records = runCalls tr (calls mpi st ops) := by
  induction ops generalizing st tr with
  | nil => rfl
  | cons op ops ih => exact congrArg (_ :: ·) (ih _ _)

/-- **In a run, the library remembers every call before it.** -/
theorem run_call {mpi : Mpi} {ops : List Op} {st : Proc} {tr : Library} (h : Agrees st tr) :
    ∀ s ∈ run mpi st tr ops, ∃ tr',
      Agrees s.before tr' ∧ s.records = ((s.op.call mpi s.before).run tr').1 := by
  induction ops generalizing st tr with
  | nil => exact fun s hs => absurd hs (by simp [run])
  | cons op ops ih =>
    intro s hs
    rcases List.mem_cons.mp hs with rfl | hs
    · exact ⟨tr, h, rfl⟩
    · exact ih (agrees_step h op) s hs

/-- So every call records the messages of its operation. -/
theorem run_messages {mpi : Mpi} {ops : List Op} {st : Proc} {tr : Library} (h : Agrees st tr) :
    ∀ s ∈ run mpi st tr ops, linkRecords s.records = s.op.messages mpi s.before := by
  intro s hs
  obtain ⟨tr', hagrees, hrecords⟩ := run_call h s hs
  rw [hrecords]
  exact messages_eq hagrees s.op

theorem length_history (mpi : Mpi) (ops : List Op) : (history mpi ops).length = ops.length := by
  have hlen : ∀ st tr, (run mpi st tr ops).length = ops.length := by
    induction ops with
    | nil => exact fun _ _ => rfl
    | cons op ops ih => exact fun _ _ => congrArg (· + 1) (ih _ _)
  exact hlen _ _

theorem op_mem_of_run {mpi : Mpi} {ops : List Op} {st : Proc} {tr : Library} :
    ∀ s ∈ run mpi st tr ops, s.op ∈ ops := by
  induction ops generalizing st tr with
  | nil => exact fun s hs => absurd hs (by simp [run])
  | cons op ops ih =>
    intro s hs
    rcases List.mem_cons.mp hs with rfl | hs
    · exact List.mem_cons_self
    · exact List.mem_cons_of_mem _ (ih s hs)

/-- **An invariant of the operations holds all along a run.** -/
theorem run_invariant {mpi : Mpi} {P : Proc → Prop} {ops : List Op} {st : Proc} {tr : Library}
    (hinit : P st) (hstep : ∀ st, P st → ∀ op ∈ ops, P (op.step mpi st)) :
    ∀ s ∈ run mpi st tr ops, P s.before := by
  induction ops generalizing st tr with
  | nil => exact fun s hs => absurd hs (by simp [run])
  | cons op ops ih =>
    intro s hs
    rcases List.mem_cons.mp hs with rfl | hs
    · exact hinit
    · exact ih (hstep st hinit op (by simp)) (fun st' h op' hop => hstep st' h op' (by simp [hop]))
        s hs

end System
end Akypuera

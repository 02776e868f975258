import Akypuera.Tracer.Table

/-!
# The wrapped calls (`aky.c`)

Each wrapper records that the call is entered, calls the real function, and records that it
is left; what it records in between are messages. **Most wrappers record nothing else**
(`Bracket`), and those differ in their two event numbers only. The others are written out:
four collectives, eight sends, two receives and three waits, and `MPI_Get_processor_name`,
which records nothing.

A wrapper's arguments are the parts of the call it looks at and the answers it gets from
MPI: the communicator, the size of the datatype, the source in a status. Nothing is assumed
of them here.
-/

set_option autoImplicit false

namespace Akypuera
namespace Tracer

open Code

/-- C's conversion of an `int` to `u_int64_t`. -/
def ofInt (i : Int32) : UInt64 := i.toInt64.toUInt64

/-! ## Calls that are entered and left -/

/-- The two event numbers of a wrapper. -/
structure Bracket where
  inType : Nat
  outType : Nat
  deriving DecidableEq

/-- What such a wrapper records. -/
def Bracket.records (b : Bracket) : List Record := [rstEvent b.inType, rstEvent b.outType]

def mpiAllgather : Bracket := ⟨mpiAllgatherIn, mpiAllgatherOut⟩
def mpiAllgatherv : Bracket := ⟨mpiAllgathervIn, mpiAllgathervOut⟩
def mpiAllreduce : Bracket := ⟨mpiAllreduceIn, mpiAllreduceOut⟩
def mpiAlltoall : Bracket := ⟨mpiAlltoallIn, mpiAlltoallOut⟩
def mpiAlltoallv : Bracket := ⟨mpiAlltoallvIn, mpiAlltoallvOut⟩
def mpiBarrier : Bracket := ⟨mpiBarrierIn, mpiBarrierOut⟩
def mpiGatherv : Bracket := ⟨mpiGathervIn, mpiGathervOut⟩
def mpiOpCreate : Bracket := ⟨mpiOpCreateIn, mpiOpCreateOut⟩
def mpiOpFree : Bracket := ⟨mpiOpFreeIn, mpiOpFreeOut⟩
def mpiReduceScatter : Bracket := ⟨mpiReduceScatterIn, mpiReduceScatterOut⟩
def mpiScan : Bracket := ⟨mpiScanIn, mpiScanOut⟩
def mpiScatterv : Bracket := ⟨mpiScattervIn, mpiScattervOut⟩
def mpiCommDeleteAttr : Bracket := ⟨mpiAttrDeleteIn, mpiAttrDeleteOut⟩
def mpiCommGetAttr : Bracket := ⟨mpiAttrGetIn, mpiAttrGetOut⟩
def mpiCommSetAttr : Bracket := ⟨mpiAttrPutIn, mpiAttrPutOut⟩
def mpiCommCompare : Bracket := ⟨mpiCommCompareIn, mpiCommCompareOut⟩
def mpiCommCreate : Bracket := ⟨mpiCommCreateIn, mpiCommCreateOut⟩
def mpiCommDup : Bracket := ⟨mpiCommDupIn, mpiCommDupOut⟩
def mpiCommFree : Bracket := ⟨mpiCommFreeIn, mpiCommFreeOut⟩
def mpiCommGroup : Bracket := ⟨mpiCommGroupIn, mpiCommGroupOut⟩
def mpiCommRank : Bracket := ⟨mpiCommRankIn, mpiCommRankOut⟩
def mpiCommRemoteGroup : Bracket := ⟨mpiCommRemoteGroupIn, mpiCommRemoteGroupOut⟩
def mpiCommRemoteSize : Bracket := ⟨mpiCommRemoteSizeIn, mpiCommRemoteSizeOut⟩
def mpiCommSize : Bracket := ⟨mpiCommSizeIn, mpiCommSizeOut⟩
def mpiCommSplit : Bracket := ⟨mpiCommSplitIn, mpiCommSplitOut⟩
def mpiCommTestInter : Bracket := ⟨mpiCommTestInterIn, mpiCommTestInterOut⟩
def mpiGroupCompare : Bracket := ⟨mpiGroupCompareIn, mpiGroupCompareOut⟩
def mpiGroupDifference : Bracket := ⟨mpiGroupDifferenceIn, mpiGroupDifferenceOut⟩
def mpiGroupExcl : Bracket := ⟨mpiGroupExclIn, mpiGroupExclOut⟩
def mpiGroupFree : Bracket := ⟨mpiGroupFreeIn, mpiGroupFreeOut⟩
def mpiGroupIncl : Bracket := ⟨mpiGroupInclIn, mpiGroupInclOut⟩
def mpiGroupIntersection : Bracket := ⟨mpiGroupIntersectionIn, mpiGroupIntersectionOut⟩
def mpiGroupRank : Bracket := ⟨mpiGroupRankIn, mpiGroupRankOut⟩
def mpiGroupRangeExcl : Bracket := ⟨mpiGroupRangeExclIn, mpiGroupRangeExclOut⟩
def mpiGroupRangeIncl : Bracket := ⟨mpiGroupRangeInclIn, mpiGroupRangeInclOut⟩
def mpiGroupSize : Bracket := ⟨mpiGroupSizeIn, mpiGroupSizeOut⟩
def mpiGroupTranslateRanks : Bracket := ⟨mpiGroupTranslateRanksIn, mpiGroupTranslateRanksOut⟩
def mpiGroupUnion : Bracket := ⟨mpiGroupUnionIn, mpiGroupUnionOut⟩
def mpiIntercommCreate : Bracket := ⟨mpiIntercommCreateIn, mpiIntercommCreateOut⟩
def mpiIntercommMerge : Bracket := ⟨mpiIntercommMergeIn, mpiIntercommMergeOut⟩
def mpiCommCreateKeyval : Bracket := ⟨mpiKeyvalCreateIn, mpiKeyvalCreateOut⟩
def mpiCommFreeKeyval : Bracket := ⟨mpiKeyvalFreeIn, mpiKeyvalFreeOut⟩
def mpiAbort : Bracket := ⟨mpiAbortIn, mpiAbortOut⟩
def mpiErrorClass : Bracket := ⟨mpiErrorClassIn, mpiErrorClassOut⟩
def mpiCommCreateErrhandler : Bracket := ⟨mpiErrhandlerCreateIn, mpiErrhandlerCreateOut⟩
def mpiErrhandlerFree : Bracket := ⟨mpiErrhandlerFreeIn, mpiErrhandlerFreeOut⟩
def mpiCommGetErrhandler : Bracket := ⟨mpiErrhandlerGetIn, mpiErrhandlerGetOut⟩
def mpiErrorString : Bracket := ⟨mpiErrorStringIn, mpiErrorStringOut⟩
def mpiCommSetErrhandler : Bracket := ⟨mpiErrhandlerSetIn, mpiErrhandlerSetOut⟩
def mpiInitialized : Bracket := ⟨mpiInitializedIn, mpiInitializedOut⟩
def mpiGetAddress : Bracket := ⟨mpiAddressIn, mpiAddressOut⟩
def mpiBsendInit : Bracket := ⟨mpiBsendInitIn, mpiBsendInitOut⟩
def mpiBufferAttach : Bracket := ⟨mpiBufferAttachIn, mpiBufferAttachOut⟩
def mpiBufferDetach : Bracket := ⟨mpiBufferDetachIn, mpiBufferDetachOut⟩
def mpiCancel : Bracket := ⟨mpiCancelIn, mpiCancelOut⟩
def mpiRequestFree : Bracket := ⟨mpiRequestFreeIn, mpiRequestFreeOut⟩
def mpiRecvInit : Bracket := ⟨mpiRecvInitIn, mpiRecvInitOut⟩
def mpiSendInit : Bracket := ⟨mpiSendInitIn, mpiSendInitOut⟩
def mpiGetElements : Bracket := ⟨mpiGetElementsIn, mpiGetElementsOut⟩
def mpiGetCount : Bracket := ⟨mpiGetCountIn, mpiGetCountOut⟩
def mpiIprobe : Bracket := ⟨mpiIprobeIn, mpiIprobeOut⟩
def mpiPack : Bracket := ⟨mpiPackIn, mpiPackOut⟩
def mpiPackSize : Bracket := ⟨mpiPackSizeIn, mpiPackSizeOut⟩
def mpiProbe : Bracket := ⟨mpiProbeIn, mpiProbeOut⟩
def mpiRsendInit : Bracket := ⟨mpiRsendInitIn, mpiRsendInitOut⟩
def mpiSendrecv : Bracket := ⟨mpiSendrecvIn, mpiSendrecvOut⟩
def mpiSendrecvReplace : Bracket := ⟨mpiSendrecvReplaceIn, mpiSendrecvReplaceOut⟩
def mpiSsendInit : Bracket := ⟨mpiSsendInitIn, mpiSsendInitOut⟩
def mpiStart : Bracket := ⟨mpiStartIn, mpiStartOut⟩
def mpiStartall : Bracket := ⟨mpiStartallIn, mpiStartallOut⟩
def mpiTest : Bracket := ⟨mpiTestIn, mpiTestOut⟩
def mpiTestall : Bracket := ⟨mpiTestallIn, mpiTestallOut⟩
def mpiTestany : Bracket := ⟨mpiTestanyIn, mpiTestanyOut⟩
def mpiTestCancelled : Bracket := ⟨mpiTestCancelledIn, mpiTestCancelledOut⟩
def mpiTestsome : Bracket := ⟨mpiTestsomeIn, mpiTestsomeOut⟩
def mpiTypeCommit : Bracket := ⟨mpiTypeCommitIn, mpiTypeCommitOut⟩
def mpiTypeContiguous : Bracket := ⟨mpiTypeContiguousIn, mpiTypeContiguousOut⟩
def mpiTypeGetExtent : Bracket := ⟨mpiTypeExtentIn, mpiTypeExtentOut⟩
def mpiTypeFree : Bracket := ⟨mpiTypeFreeIn, mpiTypeFreeOut⟩
def mpiTypeCreateHindexed : Bracket := ⟨mpiTypeHindexedIn, mpiTypeHindexedOut⟩
def mpiTypeCreateHvector : Bracket := ⟨mpiTypeHvectorIn, mpiTypeHvectorOut⟩
def mpiTypeIndexed : Bracket := ⟨mpiTypeIndexedIn, mpiTypeIndexedOut⟩
def mpiTypeSize : Bracket := ⟨mpiTypeSizeIn, mpiTypeSizeOut⟩
def mpiTypeCreateStruct : Bracket := ⟨mpiTypeStructIn, mpiTypeStructOut⟩
def mpiTypeVector : Bracket := ⟨mpiTypeVectorIn, mpiTypeVectorOut⟩
def mpiUnpack : Bracket := ⟨mpiUnpackIn, mpiUnpackOut⟩
def mpiWaitsome : Bracket := ⟨mpiWaitsomeIn, mpiWaitsomeOut⟩
def mpiCartCoords : Bracket := ⟨mpiCartCoordsIn, mpiCartCoordsOut⟩
def mpiCartCreate : Bracket := ⟨mpiCartCreateIn, mpiCartCreateOut⟩
def mpiCartGet : Bracket := ⟨mpiCartGetIn, mpiCartGetOut⟩
def mpiCartMap : Bracket := ⟨mpiCartMapIn, mpiCartMapOut⟩
def mpiCartRank : Bracket := ⟨mpiCartRankIn, mpiCartRankOut⟩
def mpiCartShift : Bracket := ⟨mpiCartShiftIn, mpiCartShiftOut⟩
def mpiCartSub : Bracket := ⟨mpiCartSubIn, mpiCartSubOut⟩
def mpiCartdimGet : Bracket := ⟨mpiCartdimGetIn, mpiCartdimGetOut⟩
def mpiDimsCreate : Bracket := ⟨mpiDimsCreateIn, mpiDimsCreateOut⟩
def mpiGraphCreate : Bracket := ⟨mpiGraphCreateIn, mpiGraphCreateOut⟩
def mpiGraphGet : Bracket := ⟨mpiGraphGetIn, mpiGraphGetOut⟩
def mpiGraphMap : Bracket := ⟨mpiGraphMapIn, mpiGraphMapOut⟩
def mpiGraphNeighbors : Bracket := ⟨mpiGraphNeighborsIn, mpiGraphNeighborsOut⟩
def mpiGraphNeighborsCount : Bracket := ⟨mpiGraphNeighborsCountIn, mpiGraphNeighborsCountOut⟩
def mpiGraphdimsGet : Bracket := ⟨mpiGraphdimsGetIn, mpiGraphdimsGetOut⟩
def mpiTopoTest : Bracket := ⟨mpiTopoTestIn, mpiTopoTestOut⟩
def mpiWtime : Bracket := ⟨mpiWtimeIn, mpiWtimeOut⟩

/-- These wrappers in the order of the file, less `MPI_Abort`. -/
def plainCalls : List Bracket :=
  [mpiAllgather, mpiAllgatherv, mpiAllreduce, mpiAlltoall, mpiAlltoallv, mpiBarrier, mpiGatherv,
   mpiOpCreate, mpiOpFree, mpiReduceScatter, mpiScan, mpiScatterv, mpiCommDeleteAttr,
   mpiCommGetAttr, mpiCommSetAttr, mpiCommCompare, mpiCommCreate, mpiCommDup, mpiCommFree,
   mpiCommGroup, mpiCommRank, mpiCommRemoteGroup, mpiCommRemoteSize, mpiCommSize, mpiCommSplit,
   mpiCommTestInter, mpiGroupCompare, mpiGroupDifference, mpiGroupExcl, mpiGroupFree,
   mpiGroupIncl, mpiGroupIntersection, mpiGroupRank, mpiGroupRangeExcl, mpiGroupRangeIncl,
   mpiGroupSize, mpiGroupTranslateRanks, mpiGroupUnion, mpiIntercommCreate, mpiIntercommMerge,
   mpiCommCreateKeyval, mpiCommFreeKeyval, mpiErrorClass, mpiCommCreateErrhandler,
   mpiErrhandlerFree, mpiCommGetErrhandler, mpiErrorString, mpiCommSetErrhandler, mpiInitialized,
   mpiGetAddress, mpiBsendInit, mpiBufferAttach, mpiBufferDetach, mpiCancel, mpiRequestFree,
   mpiRecvInit, mpiSendInit, mpiGetElements, mpiGetCount, mpiIprobe, mpiPack, mpiPackSize,
   mpiProbe, mpiRsendInit, mpiSendrecv, mpiSendrecvReplace, mpiSsendInit, mpiStart, mpiStartall,
   mpiTest, mpiTestall, mpiTestany, mpiTestCancelled, mpiTestsome, mpiTypeCommit,
   mpiTypeContiguous, mpiTypeGetExtent, mpiTypeFree, mpiTypeCreateHindexed, mpiTypeCreateHvector,
   mpiTypeIndexed, mpiTypeSize, mpiTypeCreateStruct, mpiTypeVector, mpiUnpack, mpiWaitsome,
   mpiCartCoords, mpiCartCreate, mpiCartGet, mpiCartMap, mpiCartRank, mpiCartShift, mpiCartSub,
   mpiCartdimGet, mpiDimsCreate, mpiGraphCreate, mpiGraphGet, mpiGraphMap, mpiGraphNeighbors,
   mpiGraphNeighborsCount, mpiGraphdimsGet, mpiTopoTest, mpiWtime]

/-! ## `MPI_Init` and `MPI_Finalize` -/

/-- `MPI_Init`. -/
def mpiInitRecords : List Record := [rstEvent mpiInit]

/-- `MPI_Finalize`. -/
def mpiFinalize : Bracket := ⟨mpiFinalizeIn, mpiFinalizeOut⟩

/-! ## Collectives -/

/-- `MPI_Bcast`. -/
def mpiBcast (comm : Comm) (count tsize root : Int32) : List Record :=
  (if comm.rank = root then
    [rstEventL mpiBcastIn (ofInt comm.size),
      rstEventIil aky1taSend comm.size.toUInt32 (count * tsize).toUInt32 (ofInt comm.size)]
  else [rstEvent mpiBcastIn]) ++
  (if comm.rank ≠ root then [rstEventI aky1taRecv (akyTranslateRank comm root).toUInt32]
  else []) ++
  [rstEvent mpiBcastOut]

/-- `MPI_Gather`. -/
def mpiGather (comm : Comm) (sendcnt root : Int32) : List Record :=
  (if comm.rank = root then [rstEvent mpiGatherIn]
  else
    [rstEventL mpiGatherIn (ofInt comm.size),
      rstEventIil akyNt1Send (akyTranslateRank comm root).toUInt32 sendcnt.toUInt32
        (ofInt comm.size)]) ++
  (if comm.rank = root then [rstEventI akyNt1Recv comm.size.toUInt32] else []) ++
  [rstEvent mpiGatherOut]

/-- `MPI_Reduce`. -/
def mpiReduce (comm : Comm) (count tsize root : Int32) : List Record :=
  (if comm.rank = root then [rstEvent mpiReduceIn]
  else
    [rstEventL mpiReduceIn (ofInt comm.size),
      rstEventIil akyAt1Send (akyTranslateRank comm root).toUInt32 (count * tsize).toUInt32
        (ofInt comm.size)]) ++
  (if comm.rank = root then [rstEventI akyAt1Recv comm.size.toUInt32] else []) ++
  [rstEvent mpiReduceOut]

/-- `MPI_Scatter`. -/
def mpiScatter (comm : Comm) (sendcnt tsize root : Int32) : List Record :=
  (if comm.rank = root then
    [rstEventL mpiScatterIn (ofInt comm.size),
      rstEventIil aky1tnSend comm.size.toUInt32 (sendcnt * tsize).toUInt32 (ofInt comm.size)]
  else [rstEvent mpiScatterIn]) ++
  (if comm.rank ≠ root then [rstEventI aky1tnRecv (akyTranslateRank comm root).toUInt32]
  else []) ++
  [rstEvent mpiScatterOut]

/-! ## Sends -/

/-- The arguments of a send that its wrapper looks at. -/
structure Sending where
  comm : Comm
  dest : Int32
  count : Int32
  tsize : Int32

/-- The bytes sent. -/
def Sending.bytes (s : Sending) : UInt32 := (s.count * s.tsize).toUInt32

/-- The record of the message. -/
def Sending.message (s : Sending) (mark : UInt64) : Record :=
  rstEventIil akyPtpSend (akyTranslateRank s.comm s.dest).toUInt32 s.bytes mark

/-- What the eight sends share: the call, which `inRecord` enters, the message, and a new
    mark. -/
def send (tr : Library) (inRecord : Record) (outType : Nat) (s : Sending) :
    List Record × Library :=
  ([inRecord, s.message tr.sendMark, rstEvent outType],
    { tr with sendMark := tr.sendMark + 1 })

/-- `MPI_Bsend`. -/
def mpiBsend (tr : Library) (s : Sending) : List Record × Library :=
  send tr (rstEventL mpiBsendIn tr.sendMark) mpiBsendOut s

/-- `MPI_Ibsend`. -/
def mpiIbsend (tr : Library) (s : Sending) : List Record × Library :=
  send tr (rstEventL mpiIbsendIn tr.sendMark) mpiIbsendOut s

/-- `MPI_Irsend`. -/
def mpiIrsend (tr : Library) (s : Sending) : List Record × Library :=
  send tr (rstEventL mpiIrsendIn tr.sendMark) mpiIrsendOut s

/-- `MPI_Isend`, the only send that remembers its request: the mark is narrowed to `int`. -/
def mpiIsend (tr : Library) (s : Sending) (request : Ptr) : List Record × Library :=
  let (records, tr') := send tr (rstEventIl mpiIsendIn s.bytes tr.sendMark) mpiIsendOut s
  (records, akyInsertIsend tr' request tr.sendMark.toUInt32.toInt32)

/-- `MPI_Issend`. -/
def mpiIssend (tr : Library) (s : Sending) : List Record × Library :=
  send tr (rstEventL mpiIssendIn tr.sendMark) mpiIssendOut s

/-- `MPI_Rsend`. -/
def mpiRsend (tr : Library) (s : Sending) : List Record × Library :=
  send tr (rstEventL mpiRsendIn tr.sendMark) mpiRsendOut s

/-- `MPI_Send`. -/
def mpiSend (tr : Library) (s : Sending) : List Record × Library :=
  send tr (rstEventIl mpiSendIn s.bytes tr.sendMark) mpiSendOut s

/-- `MPI_Ssend`. -/
def mpiSsend (tr : Library) (s : Sending) : List Record × Library :=
  send tr (rstEventL mpiSsendIn tr.sendMark) mpiSsendOut s

/-! ## Receives and waits -/

/-- `MPI_Recv`; `source` is `stat2.MPI_SOURCE`. -/
def mpiRecv (comm : Comm) (count tsize source : Int32) : List Record :=
  [rstEventI mpiRecvIn (count * tsize).toUInt32,
    rstEventI akyPtpRecv (akyTranslateRank comm source).toUInt32,
    rstEvent mpiRecvOut]

/-- `MPI_Irecv`. -/
def mpiIrecv (tr : Library) (count tsize : Int32) (request : Ptr) : List Record × Library :=
  ([rstEventI mpiIrecvIn (count * tsize).toUInt32, rstEvent mpiIrecvOut],
    akyInsertIrecv tr request)

/-- What the three waits do with a request: a tracked receive is recorded, with the source
    from the status, and forgotten. -/
def completeIrecv (tr : Library) (req : Ptr) (source : Int32) : List Record × Library :=
  if akyCheckIrecv tr req ≠ 0 then
    ([rstEventI akyPtpRecv source.toUInt32], akyRemoveIrecv tr req)
  else ([], tr)

/-- `MPI_Wait`. -/
def mpiWait (tr : Library) (request : Ptr) (source : Int32) : List Record × Library :=
  let isend := akyCheckIsend tr request
  let (entered, tr) :=
    if isend ≠ 0 then
      (rstEventL mpiWaitIn (if isend = -1 then 0 else ofInt isend), akyRemoveIsend tr request)
    else (rstEvent mpiWaitIn, tr)
  let (recvs, tr) := completeIrecv tr request source
  (entered :: recvs ++ [rstEvent mpiWaitOut], tr)

/-- The loop of `MPI_Waitall`, from `&array_of_requests[i]` on, over the sources in `stat2`. -/
def completeIrecvs (tr : Library) (req : Ptr) : List Int32 → List Record × Library
  | [] => ([], tr)
  | source :: sources =>
      let (recvs, tr) := completeIrecv tr req source
      let (recvs', tr) := completeIrecvs tr (req + 1) sources
      (recvs ++ recvs', tr)

/-- `MPI_Waitall`; `sources` are the `MPI_SOURCE`s of the `count` statuses. -/
def mpiWaitall (tr : Library) (arrayOfRequests : Ptr) (sources : List Int32) :
    List Record × Library :=
  let (recvs, tr) := completeIrecvs tr arrayOfRequests sources
  (rstEvent mpiWaitallIn :: recvs ++ [rstEvent mpiWaitallOut], tr)

/-- `MPI_Waitany`; `index` is what MPI stored there, `MPI_UNDEFINED` included. -/
def mpiWaitany (tr : Library) (arrayOfRequests : Ptr) (index source : Int32) :
    List Record × Library :=
  let (recvs, tr) := completeIrecv tr (arrayOfRequests + index.toInt) source
  (rstEvent mpiWaitanyIn :: recvs ++ [rstEvent mpiWaitanyOut], tr)

/-! ## Processes -/

/-- A wrapped call with its arguments and MPI's answers. -/
inductive Call where
  | plain (b : { b : Bracket // b ∈ plainCalls })
  | getProcessorName
  | bcast (comm : Comm) (count tsize root : Int32)
  | gather (comm : Comm) (sendcnt root : Int32)
  | reduce (comm : Comm) (count tsize root : Int32)
  | scatter (comm : Comm) (sendcnt tsize root : Int32)
  | bsend (s : Sending)
  | ibsend (s : Sending)
  | irsend (s : Sending)
  | isend (s : Sending) (request : Ptr)
  | issend (s : Sending)
  | rsend (s : Sending)
  | send (s : Sending)
  | ssend (s : Sending)
  | recv (comm : Comm) (count tsize source : Int32)
  | irecv (count tsize : Int32) (request : Ptr)
  | wait (request : Ptr) (source : Int32)
  | waitall (arrayOfRequests : Ptr) (sources : List Int32)
  | waitany (arrayOfRequests : Ptr) (index source : Int32)

/-- What a call records, and what the library remembers after it. -/
def Call.run (tr : Library) : Call → List Record × Library
  | plain b => (b.1.records, tr)
  | getProcessorName => ([], tr)
  | bcast comm count tsize root => (mpiBcast comm count tsize root, tr)
  | gather comm sendcnt root => (mpiGather comm sendcnt root, tr)
  | reduce comm count tsize root => (mpiReduce comm count tsize root, tr)
  | scatter comm sendcnt tsize root => (mpiScatter comm sendcnt tsize root, tr)
  | bsend s => mpiBsend tr s
  | ibsend s => mpiIbsend tr s
  | irsend s => mpiIrsend tr s
  | isend s request => mpiIsend tr s request
  | issend s => mpiIssend tr s
  | rsend s => mpiRsend tr s
  | send s => mpiSend tr s
  | ssend s => mpiSsend tr s
  | recv comm count tsize source => (mpiRecv comm count tsize source, tr)
  | irecv count tsize request => mpiIrecv tr count tsize request
  | wait request source => mpiWait tr request source
  | waitall arrayOfRequests sources => mpiWaitall tr arrayOfRequests sources
  | waitany arrayOfRequests index source => mpiWaitany tr arrayOfRequests index source

/-- What a sequence of calls records, call by call. -/
def runCalls (tr : Library) : List Call → List (List Record)
  | [] => []
  | c :: cs => (c.run tr).1 :: runCalls (c.run tr).2 cs

/-- The stream of a process that makes these calls between `MPI_Init` and `MPI_Finalize`. -/
def stream (cs : List Call) : List Record :=
  mpiInitRecords ++ (runCalls Library.init cs).flatten ++ mpiFinalize.records

end Tracer
end Akypuera

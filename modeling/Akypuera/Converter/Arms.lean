import Akypuera.Events.Names

/-!
# The converter's switch (`aky_converter.c`, `main`)

The `case` labels of `main`, in its order, and nothing of what happens under them: `arm` says
under which label group an event number falls. Numbers without a label (`skip`) are read and
dropped.

C allows a number under one label only, so the order of the lookup does not matter. What does
matter is that **every state that is pushed has a name** (`nameGet_isSome`): the two tables,
the labels here and the names in `aky_names.c`, were written separately.
-/

set_option autoImplicit false

namespace Akypuera
namespace Converter

open CText Code

/-- The kinds of link between ranks. -/
inductive Family where
  | ptp
  | oneToN
  | nToOne
  | oneToA
  | aToOne
  deriving DecidableEq

/-- `AKY_KEY_PTP`. -/
def akyKeyPtp : Str := "ptp".toList

/-- `AKY_KEY_1TN`. -/
def akyKey1tn : Str := "1tn".toList

/-- `AKY_KEY_NT1`, which the header spells like `AKY_KEY_1TN`. -/
def akyKeyNt1 : Str := "1tn".toList

/-- `AKY_KEY_1TA`. -/
def akyKey1ta : Str := "1ta".toList

/-- `AKY_KEY_AT1`. -/
def akyKeyAt1 : Str := "at1".toList

/-- The `keyc` argument: the type string the family's keys are filed under. -/
def Family.keyc : Family → Str
  | ptp => akyKeyPtp
  | oneToN => akyKey1tn
  | nToOne => akyKeyNt1
  | oneToA => akyKey1ta
  | aToOne => akyKeyAt1

/-- The `keys` argument: the value of the family's link events. -/
def Family.keys : Family → Str
  | ptp => "PTP".toList
  | oneToN => "1TN".toList
  | nToOne => "NT1".toList
  | oneToA => "1TA".toList
  | aToOne => "AT1".toList

/-- The label groups of the switch. -/
inductive Arm where
  | ptpSend
  | ptpRecv
  | xt1Send (f : Family)
  | oneTxSend (f : Family)
  | xt1Recv (f : Family)
  | oneTxRecv (f : Family)
  | init
  | pushState
  | pushStateSend
  | pushStateRecv
  | popState
  | finalizeOut
  | skip
  deriving DecidableEq

/-- The labels above the plain `PushState`. -/
def pushLabels : List Nat :=
  [mpiCommSpawnIn, mpiCommGetNameIn, mpiCommSetNameIn, mpiReduceIn, mpiAllreduceIn,
   mpiReduceScatterIn, mpiAllgatherIn, mpiAllgathervIn, mpiScatterIn, mpiScattervIn, mpiWaitIn,
   mpiBcastIn, mpiBarrierIn, mpiGatherIn, mpiGathervIn, mpiAlltoallIn, mpiAlltoallvIn,
   mpiOpCreateIn, mpiOpFreeIn, mpiScanIn, mpiAttrDeleteIn, mpiAttrGetIn, mpiAttrPutIn,
   mpiCommCompareIn, mpiCommCreateIn, mpiCommDupIn, mpiCommFreeIn, mpiCommGroupIn, mpiCommRankIn,
   mpiCommRemoteGroupIn, mpiCommRemoteSizeIn, mpiCommSizeIn, mpiCommSplitIn, mpiCommTestInterIn,
   mpiGroupCompareIn, mpiGroupDifferenceIn, mpiGroupExclIn, mpiGroupFreeIn, mpiGroupInclIn,
   mpiGroupIntersectionIn, mpiGroupRankIn, mpiGroupRangeExclIn, mpiGroupRangeInclIn,
   mpiGroupSizeIn, mpiGroupTranslateRanksIn, mpiGroupUnionIn, mpiIntercommCreateIn,
   mpiIntercommMergeIn, mpiKeyvalCreateIn, mpiKeyvalFreeIn, mpiAbortIn, mpiErrorClassIn,
   mpiErrhandlerCreateIn, mpiErrhandlerFreeIn, mpiErrhandlerGetIn, mpiErrorStringIn,
   mpiErrhandlerSetIn, mpiGetProcessorNameIn, mpiInitializedIn, mpiWtickIn, mpiWtimeIn,
   mpiAddressIn, mpiBsendIn, mpiBsendInitIn, mpiBufferAttachIn, mpiBufferDetachIn, mpiCancelIn,
   mpiRequestFreeIn, mpiRecvInitIn, mpiSendInitIn, mpiGetElementsIn, mpiGetCountIn, mpiIbsendIn,
   mpiIprobeIn, mpiIrsendIn, mpiIssendIn, mpiPackIn, mpiPackSizeIn, mpiProbeIn, mpiRsendIn,
   mpiRsendInitIn, mpiSendrecvIn, mpiSendrecvReplaceIn, mpiSsendIn, mpiSsendInitIn, mpiStartIn,
   mpiStartallIn, mpiTestIn, mpiTestallIn, mpiTestanyIn, mpiTestCancelledIn, mpiTestsomeIn,
   mpiTypeCommitIn, mpiTypeContiguousIn, mpiTypeExtentIn, mpiTypeFreeIn, mpiTypeHindexedIn,
   mpiTypeHvectorIn, mpiTypeIndexedIn, mpiTypeLbIn, mpiTypeSizeIn, mpiTypeStructIn, mpiTypeUbIn,
   mpiTypeVectorIn, mpiUnpackIn, mpiWaitallIn, mpiWaitanyIn, mpiWaitsomeIn, mpiCartCoordsIn,
   mpiCartCreateIn, mpiCartGetIn, mpiCartMapIn, mpiCartShiftIn, mpiCartdimGetIn, mpiDimsCreateIn,
   mpiGraphCreateIn, mpiGraphGetIn, mpiGraphMapIn, mpiGraphNeighborsIn, mpiGraphNeighborsCountIn,
   mpiGraphdimsGetIn, mpiTopoTestIn, mpiRecvIdleIn, mpiCartRankIn, mpiCartSubIn, mpiFinalizeIn]

/-- The labels above the plain `PopState`. -/
def popLabels : List Nat :=
  [mpiCommSpawnOut, mpiCommGetNameOut, mpiCommSetNameOut, mpiReduceOut, mpiAllreduceOut,
   mpiReduceScatterOut, mpiAllgatherOut, mpiAllgathervOut, mpiScatterOut, mpiScattervOut,
   mpiWaitOut, mpiIrecvOut, mpiIsendOut, mpiRecvOut, mpiSendOut, mpiBcastOut, mpiBarrierOut,
   mpiGatherOut, mpiGathervOut, mpiAlltoallOut, mpiAlltoallvOut, mpiOpCreateOut, mpiOpFreeOut,
   mpiScanOut, mpiAttrDeleteOut, mpiAttrGetOut, mpiAttrPutOut, mpiCommCompareOut,
   mpiCommCreateOut, mpiCommDupOut, mpiCommFreeOut, mpiCommGroupOut, mpiCommRankOut,
   mpiCommRemoteGroupOut, mpiCommRemoteSizeOut, mpiCommSizeOut, mpiCommSplitOut,
   mpiCommTestInterOut, mpiGroupCompareOut, mpiGroupDifferenceOut, mpiGroupExclOut,
   mpiGroupFreeOut, mpiGroupInclOut, mpiGroupIntersectionOut, mpiGroupRankOut,
   mpiGroupRangeExclOut, mpiGroupRangeInclOut, mpiGroupSizeOut, mpiGroupTranslateRanksOut,
   mpiGroupUnionOut, mpiIntercommCreateOut, mpiIntercommMergeOut, mpiKeyvalCreateOut,
   mpiKeyvalFreeOut, mpiAbortOut, mpiErrorClassOut, mpiErrhandlerCreateOut, mpiErrhandlerFreeOut,
   mpiErrhandlerGetOut, mpiErrorStringOut, mpiErrhandlerSetOut, mpiGetProcessorNameOut,
   mpiInitializedOut, mpiWtickOut, mpiWtimeOut, mpiAddressOut, mpiBsendOut, mpiBsendInitOut,
   mpiBufferAttachOut, mpiBufferDetachOut, mpiCancelOut, mpiRequestFreeOut, mpiRecvInitOut,
   mpiSendInitOut, mpiGetElementsOut, mpiGetCountOut, mpiIbsendOut, mpiIprobeOut, mpiIrsendOut,
   mpiIssendOut, mpiPackOut, mpiPackSizeOut, mpiProbeOut, mpiRsendOut, mpiRsendInitOut,
   mpiSendrecvOut, mpiSendrecvReplaceOut, mpiSsendOut, mpiSsendInitOut, mpiStartOut,
   mpiStartallOut, mpiTestOut, mpiTestallOut, mpiTestanyOut, mpiTestCancelledOut, mpiTestsomeOut,
   mpiTypeCommitOut, mpiTypeContiguousOut, mpiTypeExtentOut, mpiTypeFreeOut, mpiTypeHindexedOut,
   mpiTypeHvectorOut, mpiTypeIndexedOut, mpiTypeLbOut, mpiTypeSizeOut, mpiTypeStructOut,
   mpiTypeUbOut, mpiTypeVectorOut, mpiUnpackOut, mpiWaitallOut, mpiWaitanyOut, mpiWaitsomeOut,
   mpiCartCoordsOut, mpiCartCreateOut, mpiCartGetOut, mpiCartMapOut, mpiCartShiftOut,
   mpiCartdimGetOut, mpiDimsCreateOut, mpiGraphCreateOut, mpiGraphGetOut, mpiGraphMapOut,
   mpiGraphNeighborsOut, mpiGraphNeighborsCountOut, mpiGraphdimsGetOut, mpiTopoTestOut,
   mpiRecvIdleOut, mpiCartRankOut, mpiCartSubOut]

/-- The labels above the link code. -/
def linkLabels : List (Nat × Arm) :=
  [(akyPtpSend, .ptpSend),
   (akyPtpRecv, .ptpRecv),
   (akyNt1Send, .xt1Send .nToOne),
   (aky1tnSend, .oneTxSend .oneToN),
   (akyAt1Send, .xt1Send .aToOne),
   (aky1taSend, .oneTxSend .oneToA),
   (akyNt1Recv, .xt1Recv .nToOne),
   (aky1tnRecv, .oneTxRecv .oneToN),
   (akyAt1Recv, .xt1Recv .aToOne),
   (aky1taRecv, .oneTxRecv .oneToA)]

/-- The labels above the extended `PushState`s. -/
def sizedLabels : List (Nat × Arm) :=
  [(mpiIsendIn, .pushStateSend), (mpiSendIn, .pushStateSend),
   (mpiIrecvIn, .pushStateRecv), (mpiRecvIn, .pushStateRecv)]

/-- The switch: every label with its group. -/
def labels : List (Nat × Arm) :=
  linkLabels ++ ((mpiInit, Arm.init) :: (pushLabels.map fun l => (l, Arm.pushState)) ++
    sizedLabels ++ (popLabels.map fun l => (l, Arm.popState)) ++
    [(mpiFinalizeOut, Arm.finalizeOut)])

/-- The label group an event number falls under. -/
def arm (type : Nat) : Arm := (labels.lookup type).getD .skip

/-- A number that is not skipped has its label in the switch. -/
theorem mem_labels {type : Nat} {a : Arm} (h : arm type = a) (ha : a ≠ .skip) :
    (type, a) ∈ labels := by
  unfold arm at h
  cases hl : labels.lookup type with
  | none =>
    rw [hl] at h
    exact absurd h.symm ha
  | some b =>
    rw [hl] at h
    subst h
    obtain ⟨before, after, hsplit, _⟩ := List.lookup_eq_some_iff.mp hl
    rw [hsplit]
    simp

/-- The label groups that push a state. -/
def Arm.pushes : Arm → Bool
  | .pushState | .pushStateSend | .pushStateRecv => true
  | _ => false

/-- **Every state that is pushed has a name.** -/
theorem nameGet_isSome {type : Nat} (h : (arm type).pushes = true) :
    (nameGet type).isSome = true := by
  have hall : ∀ l ∈ labels, l.2.pushes = true → (nameGet l.1).isSome = true := by
    decide +kernel
  have hskip : arm type ≠ .skip := by
    intro hs
    rw [hs] at h
    exact absurd h (by simp [Arm.pushes])
  exact hall _ (mem_labels rfl hskip) h

end Converter
end Akypuera

import Akypuera.Events.Codes
import Akypuera.Lib.CText

/-!
# State names (`aky_names.c`)

`name_init` fills a fixed array of pointers at the indices below and leaves every other slot
as `malloc` gave it, so looking up another number reads a pointer nobody wrote. `nameGet`
answers `none` there.
-/

set_option autoImplicit false

namespace Akypuera

open CText Code

/-- The slots `name_init` writes, in its order. -/
def mpiNames : List (Nat × String) :=
  [(mpiInit, "MPI_Init"),
   (mpiCommSpawnIn, "MPI_Comm_spawn"),
   (mpiCommGetNameIn, "MPI_Comm_get_name"),
   (mpiCommSetNameIn, "MPI_Comm_set_name"),
   (mpiReduceIn, "MPI_Reduce"),
   (mpiAllreduceIn, "MPI_Allreduce"),
   (mpiReduceScatterIn, "MPI_Reduce_scatter"),
   (mpiAllgatherIn, "MPI_Allgather"),
   (mpiAllgathervIn, "MPI_Allgatherv"),
   (mpiScatterIn, "MPI_Scatter"),
   (mpiScattervIn, "MPI_Scatterv"),
   (mpiWaitIn, "MPI_Wait"),
   (mpiIrecvIn, "MPI_Irecv"),
   (mpiIsendIn, "MPI_Isend"),
   (mpiRecvIn, "MPI_Recv"),
   (mpiSendIn, "MPI_Send"),
   (mpiBcastIn, "MPI_Bcast"),
   (mpiBarrierIn, "MPI_Barrier"),
   (mpiGatherIn, "MPI_Gather"),
   (mpiGathervIn, "MPI_Gatherv"),
   (mpiAlltoallIn, "MPI_Alltoall"),
   (mpiAlltoallvIn, "MPI_Alltoallv"),
   (mpiOpCreateIn, "MPI_Op_create"),
   (mpiOpFreeIn, "MPI_Op_free"),
   (mpiScanIn, "MPI_Scan"),
   (mpiAttrDeleteIn, "MPI_Attr_delete"),
   (mpiAttrGetIn, "MPI_Attr_get"),
   (mpiAttrPutIn, "MPI_Attr_put"),
   (mpiCommCompareIn, "MPI_Comm_compare"),
   (mpiCommCreateIn, "MPI_Comm_create"),
   (mpiCommDupIn, "MPI_Comm_dup"),
   (mpiCommFreeIn, "MPI_Comm_free"),
   (mpiCommGroupIn, "MPI_Comm_group"),
   (mpiCommRankIn, "MPI_Comm_rank"),
   (mpiCommRemoteGroupIn, "MPI_Comm_remote_group"),
   (mpiCommRemoteSizeIn, "MPI_Comm_remote_size"),
   (mpiCommSizeIn, "MPI_Comm_size"),
   (mpiCommSplitIn, "MPI_Comm_split"),
   (mpiCommTestInterIn, "MPI_Comm_test_inter"),
   (mpiCommTestInterOut, "MPI_Comm_test_inter_out"),
   (mpiGroupCompareIn, "MPI_Group_compare"),
   (mpiGroupDifferenceIn, "MPI_Group_difference"),
   (mpiGroupExclIn, "MPI_Group_excl"),
   (mpiGroupFreeIn, "MPI_Group_free"),
   (mpiGroupInclIn, "MPI_Group_incl"),
   (mpiGroupInclOut, "MPI_Group_incl_out"),
   (mpiGroupIntersectionIn, "MPI_Group_intersection"),
   (mpiGroupIntersectionOut, "MPI_Group_intersection_out"),
   (mpiGroupRankIn, "MPI_Group_rank"),
   (mpiGroupRangeExclIn, "MPI_Group_range_excl"),
   (mpiGroupRangeInclIn, "MPI_Group_range_incl"),
   (mpiGroupRangeInclOut, "MPI_Group_range_incl_out"),
   (mpiGroupSizeIn, "MPI_Group_size"),
   (mpiGroupTranslateRanksIn, "MPI_Group_translate_ranks"),
   (mpiGroupUnionIn, "MPI_Group_union"),
   (mpiIntercommCreateIn, "MPI_Intercomm_create"),
   (mpiIntercommCreateOut, "MPI_Intercomm_create_out"),
   (mpiIntercommMergeIn, "MPI_Intercomm_merge"),
   (mpiIntercommMergeOut, "MPI_Intercomm_merge_out"),
   (mpiKeyvalCreateIn, "MPI_Keyval_create"),
   (mpiKeyvalFreeIn, "MPI_Keyval_free"),
   (mpiAbortIn, "MPI_Abort"),
   (mpiErrorClassIn, "MPI_Error_class"),
   (mpiErrhandlerCreateIn, "MPI_Errhandler_create"),
   (mpiErrhandlerFreeIn, "MPI_Errhandler_free"),
   (mpiErrhandlerGetIn, "MPI_Errhandler_get"),
   (mpiErrorStringIn, "MPI_Error_string"),
   (mpiErrhandlerSetIn, "MPI_Errhandler_set"),
   (mpiGetProcessorNameIn, "MPI_Get_processor_name"),
   (mpiInitializedIn, "MPI_Initialized"),
   (mpiInitializedOut, "MPI_Initialized_out"),
   (mpiWtickIn, "MPI_Wtick"),
   (mpiWtimeIn, "MPI_Wtime"),
   (mpiAddressIn, "MPI_Address"),
   (mpiBsendIn, "MPI_Bsend"),
   (mpiBsendInitIn, "MPI_Bsend_init"),
   (mpiBsendInitOut, "MPI_Bsend_init_out"),
   (mpiBufferAttachIn, "MPI_Buffer_attach"),
   (mpiBufferDetachIn, "MPI_Buffer_detach"),
   (mpiCancelIn, "MPI_Cancel"),
   (mpiRequestFreeIn, "MPI_Request_free"),
   (mpiRecvInitIn, "MPI_Recv_init"),
   (mpiRecvInitOut, "MPI_Recv_init_out"),
   (mpiSendInitIn, "MPI_Send_init"),
   (mpiSendInitOut, "MPI_Send_init_out"),
   (mpiGetElementsIn, "MPI_Get_elements"),
   (mpiGetCountIn, "MPI_Get_count"),
   (mpiIbsendIn, "MPI_Ibsend"),
   (mpiIprobeIn, "MPI_Iprobe"),
   (mpiIrsendIn, "MPI_Irsend"),
   (mpiIssendIn, "MPI_Issend"),
   (mpiPackIn, "MPI_Pack"),
   (mpiPackSizeIn, "MPI_Pack_size"),
   (mpiProbeIn, "MPI_Probe"),
   (mpiRsendIn, "MPI_Rsend"),
   (mpiRsendInitIn, "MPI_Rsend_init"),
   (mpiRsendInitOut, "MPI_Rsend_init_out"),
   (mpiSendrecvIn, "MPI_Sendrecv"),
   (mpiSendrecvReplaceIn, "MPI_Sendrecv_replace"),
   (mpiSsendIn, "MPI_Ssend"),
   (mpiSsendInitIn, "MPI_Ssend_init"),
   (mpiSsendInitOut, "MPI_Ssend_init_out"),
   (mpiStartIn, "MPI_Start"),
   (mpiStartallIn, "MPI_Startall"),
   (mpiTestIn, "MPI_Test"),
   (mpiTestallIn, "MPI_Testall"),
   (mpiTestanyIn, "MPI_Testany"),
   (mpiTestCancelledIn, "MPI_Test_cancelled"),
   (mpiTestsomeIn, "MPI_Testsome"),
   (mpiTypeCommitIn, "MPI_Type_commit"),
   (mpiTypeContiguousIn, "MPI_Type_contiguous"),
   (mpiTypeExtentIn, "MPI_Type_extent"),
   (mpiTypeFreeIn, "MPI_Type_free"),
   (mpiTypeHindexedIn, "MPI_Type_hindexed"),
   (mpiTypeHvectorIn, "MPI_Type_hvector"),
   (mpiTypeIndexedIn, "MPI_Type_indexed"),
   (mpiTypeIndexedOut, "MPI_Type_indexed_out"),
   (mpiTypeLbIn, "MPI_Type_lb"),
   (mpiTypeSizeIn, "MPI_Type_size"),
   (mpiTypeStructIn, "MPI_Type_struct"),
   (mpiTypeUbIn, "MPI_Type_ub"),
   (mpiTypeVectorIn, "MPI_Type_vector"),
   (mpiUnpackIn, "MPI_Unpack"),
   (mpiWaitallIn, "MPI_Waitall"),
   (mpiWaitanyIn, "MPI_Waitany"),
   (mpiWaitsomeIn, "MPI_Waitsome"),
   (mpiCartCoordsIn, "MPI_Cart_coords"),
   (mpiCartCreateIn, "MPI_Cart_create"),
   (mpiCartGetIn, "MPI_Cart_get"),
   (mpiCartMapIn, "MPI_Cart_map"),
   (mpiCartShiftIn, "MPI_Cart_shift"),
   (mpiCartdimGetIn, "MPI_Cartdim_get"),
   (mpiDimsCreateIn, "MPI_Dims_create"),
   (mpiGraphCreateIn, "MPI_Graph_create"),
   (mpiGraphGetIn, "MPI_Graph_get"),
   (mpiGraphMapIn, "MPI_Graph_map"),
   (mpiGraphNeighborsIn, "MPI_Graph_neighbors"),
   (mpiGraphNeighborsCountIn, "MPI_Graph_neighbors_count"),
   (mpiGraphdimsGetIn, "MPI_Graphdims_get"),
   (mpiTopoTestIn, "MPI_Topo_test"),
   (mpiRecvIdleIn, "MPI_Recv_idle"),
   (mpiCartRankIn, "MPI_Cart_rank"),
   (mpiCartSubIn, "MPI_Cart_sub"),
   (mpiFinalizeIn, "MPI_Finalize")]

/-- `name_get`; `none` where `name_init` wrote nothing. -/
def nameGet (id : Nat) : Option Str := (mpiNames.lookup id).map String.toList

end Akypuera

/-!
# The event numbers of `aky.h`

Every record of a trace carries one of these numbers in its 16-bit type field: what the
tracing library writes and what the converters switch on. The names are those of the header;
the values matter, because both sides mean the number and nothing else.

A wrapped call `MPI_X` owns a pair of numbers, one for entering and one for leaving; the
`AKY_` numbers are the messages recorded in between.
-/

set_option autoImplicit false

namespace Akypuera
namespace Code

/-! ## Starting and finishing -/

def mpiInit : Nat := 1000
def mpiFinalizeIn : Nat := 1002
def mpiFinalizeOut : Nat := 1003

/-! ## MPI-2 and additional communicator calls -/

def mpiCommSpawnIn : Nat := 2000
def mpiCommSpawnOut : Nat := 2001
def mpiCommGetNameIn : Nat := 3000
def mpiCommGetNameOut : Nat := 3001
def mpiCommSetNameIn : Nat := 3002
def mpiCommSetNameOut : Nat := 3003

/-! ## The calls of MPI-1, used and not used -/

def mpiReduceIn : Nat := 25
def mpiReduceOut : Nat := 26
def mpiAllreduceIn : Nat := 5
def mpiAllreduceOut : Nat := 6
def mpiReduceScatterIn : Nat := 23
def mpiReduceScatterOut : Nat := 24
def mpiAllgatherIn : Nat := 1
def mpiAllgatherOut : Nat := 2
def mpiAllgathervIn : Nat := 3
def mpiAllgathervOut : Nat := 4
def mpiScatterIn : Nat := 29
def mpiScatterOut : Nat := 30
def mpiScattervIn : Nat := 31
def mpiScattervOut : Nat := 32
def mpiWaitIn : Nat := 211
def mpiWaitOut : Nat := 212
def mpiIrecvIn : Nat := 141
def mpiIrecvOut : Nat := 142
def mpiIsendIn : Nat := 145
def mpiIsendOut : Nat := 146
def mpiRecvIn : Nat := 155
def mpiRecvOut : Nat := 156
def mpiSendIn : Nat := 161
def mpiSendOut : Nat := 162
def mpiBcastIn : Nat := 13
def mpiBcastOut : Nat := 14
def mpiBarrierIn : Nat := 11
def mpiBarrierOut : Nat := 12
def mpiGatherIn : Nat := 15
def mpiGatherOut : Nat := 16
def mpiGathervIn : Nat := 17
def mpiGathervOut : Nat := 18
def mpiAlltoallIn : Nat := 7
def mpiAlltoallOut : Nat := 8
def mpiAlltoallvIn : Nat := 9
def mpiAlltoallvOut : Nat := 10
def mpiOpCreateIn : Nat := 19
def mpiOpCreateOut : Nat := 20
def mpiOpFreeIn : Nat := 21
def mpiOpFreeOut : Nat := 22
def mpiScanIn : Nat := 27
def mpiScanOut : Nat := 28
def mpiAttrDeleteIn : Nat := 33
def mpiAttrDeleteOut : Nat := 34
def mpiAttrGetIn : Nat := 35
def mpiAttrGetOut : Nat := 36
def mpiAttrPutIn : Nat := 37
def mpiAttrPutOut : Nat := 38
def mpiCommCompareIn : Nat := 39
def mpiCommCompareOut : Nat := 40
def mpiCommCreateIn : Nat := 41
def mpiCommCreateOut : Nat := 42
def mpiCommDupIn : Nat := 43
def mpiCommDupOut : Nat := 44
def mpiCommFreeIn : Nat := 45
def mpiCommFreeOut : Nat := 46
def mpiCommGroupIn : Nat := 47
def mpiCommGroupOut : Nat := 48
def mpiCommRankIn : Nat := 49
def mpiCommRankOut : Nat := 50
def mpiCommRemoteGroupIn : Nat := 51
def mpiCommRemoteGroupOut : Nat := 52
def mpiCommRemoteSizeIn : Nat := 53
def mpiCommRemoteSizeOut : Nat := 54
def mpiCommSizeIn : Nat := 55
def mpiCommSizeOut : Nat := 56
def mpiCommSplitIn : Nat := 57
def mpiCommSplitOut : Nat := 58
def mpiCommTestInterIn : Nat := 59
def mpiCommTestInterOut : Nat := 60
def mpiGroupCompareIn : Nat := 61
def mpiGroupCompareOut : Nat := 62
def mpiGroupDifferenceIn : Nat := 63
def mpiGroupDifferenceOut : Nat := 64
def mpiGroupExclIn : Nat := 65
def mpiGroupExclOut : Nat := 66
def mpiGroupFreeIn : Nat := 67
def mpiGroupFreeOut : Nat := 68
def mpiGroupInclIn : Nat := 69
def mpiGroupInclOut : Nat := 70
def mpiGroupIntersectionIn : Nat := 71
def mpiGroupIntersectionOut : Nat := 72
def mpiGroupRankIn : Nat := 73
def mpiGroupRankOut : Nat := 74
def mpiGroupRangeExclIn : Nat := 75
def mpiGroupRangeExclOut : Nat := 76
def mpiGroupRangeInclIn : Nat := 77
def mpiGroupRangeInclOut : Nat := 78
def mpiGroupSizeIn : Nat := 79
def mpiGroupSizeOut : Nat := 80
def mpiGroupTranslateRanksIn : Nat := 81
def mpiGroupTranslateRanksOut : Nat := 82
def mpiGroupUnionIn : Nat := 83
def mpiGroupUnionOut : Nat := 84
def mpiIntercommCreateIn : Nat := 85
def mpiIntercommCreateOut : Nat := 86
def mpiIntercommMergeIn : Nat := 87
def mpiIntercommMergeOut : Nat := 88
def mpiKeyvalCreateIn : Nat := 89
def mpiKeyvalCreateOut : Nat := 90
def mpiKeyvalFreeIn : Nat := 91
def mpiKeyvalFreeOut : Nat := 92
def mpiAbortIn : Nat := 93
def mpiAbortOut : Nat := 94
def mpiErrorClassIn : Nat := 95
def mpiErrorClassOut : Nat := 96
def mpiErrhandlerCreateIn : Nat := 97
def mpiErrhandlerCreateOut : Nat := 98
def mpiErrhandlerFreeIn : Nat := 99
def mpiErrhandlerFreeOut : Nat := 100
def mpiErrhandlerGetIn : Nat := 101
def mpiErrhandlerGetOut : Nat := 102
def mpiErrorStringIn : Nat := 103
def mpiErrorStringOut : Nat := 104
def mpiErrhandlerSetIn : Nat := 105
def mpiErrhandlerSetOut : Nat := 106
def mpiGetProcessorNameIn : Nat := 107
def mpiGetProcessorNameOut : Nat := 108
def mpiInitializedIn : Nat := 109
def mpiInitializedOut : Nat := 110
def mpiWtickIn : Nat := 111
def mpiWtickOut : Nat := 112
def mpiWtimeIn : Nat := 113
def mpiWtimeOut : Nat := 114
def mpiAddressIn : Nat := 115
def mpiAddressOut : Nat := 116
def mpiBsendIn : Nat := 117
def mpiBsendOut : Nat := 118
def mpiBsendInitIn : Nat := 119
def mpiBsendInitOut : Nat := 120
def mpiBufferAttachIn : Nat := 121
def mpiBufferAttachOut : Nat := 122
def mpiBufferDetachIn : Nat := 123
def mpiBufferDetachOut : Nat := 124
def mpiCancelIn : Nat := 125
def mpiCancelOut : Nat := 126
def mpiRequestFreeIn : Nat := 127
def mpiRequestFreeOut : Nat := 128
def mpiRecvInitIn : Nat := 129
def mpiRecvInitOut : Nat := 130
def mpiSendInitIn : Nat := 131
def mpiSendInitOut : Nat := 132
def mpiGetElementsIn : Nat := 133
def mpiGetElementsOut : Nat := 134
def mpiGetCountIn : Nat := 135
def mpiGetCountOut : Nat := 136
def mpiIbsendIn : Nat := 137
def mpiIbsendOut : Nat := 138
def mpiIprobeIn : Nat := 139
def mpiIprobeOut : Nat := 140
def mpiIrsendIn : Nat := 143
def mpiIrsendOut : Nat := 144
def mpiIssendIn : Nat := 147
def mpiIssendOut : Nat := 148
def mpiPackIn : Nat := 149
def mpiPackOut : Nat := 150
def mpiPackSizeIn : Nat := 151
def mpiPackSizeOut : Nat := 152
def mpiProbeIn : Nat := 153
def mpiProbeOut : Nat := 154
def mpiRsendIn : Nat := 157
def mpiRsendOut : Nat := 158
def mpiRsendInitIn : Nat := 159
def mpiRsendInitOut : Nat := 160
def mpiSendrecvIn : Nat := 163
def mpiSendrecvOut : Nat := 164
def mpiSendrecvReplaceIn : Nat := 165
def mpiSendrecvReplaceOut : Nat := 166
def mpiSsendIn : Nat := 167
def mpiSsendOut : Nat := 168
def mpiSsendInitIn : Nat := 169
def mpiSsendInitOut : Nat := 170
def mpiStartIn : Nat := 171
def mpiStartOut : Nat := 172
def mpiStartallIn : Nat := 173
def mpiStartallOut : Nat := 174
def mpiTestIn : Nat := 175
def mpiTestOut : Nat := 176
def mpiTestallIn : Nat := 177
def mpiTestallOut : Nat := 178
def mpiTestanyIn : Nat := 179
def mpiTestanyOut : Nat := 180
def mpiTestCancelledIn : Nat := 181
def mpiTestCancelledOut : Nat := 182
def mpiTestsomeIn : Nat := 183
def mpiTestsomeOut : Nat := 184
def mpiTypeCommitIn : Nat := 185
def mpiTypeCommitOut : Nat := 186
def mpiTypeContiguousIn : Nat := 187
def mpiTypeContiguousOut : Nat := 188
def mpiTypeExtentIn : Nat := 189
def mpiTypeExtentOut : Nat := 190
def mpiTypeFreeIn : Nat := 191
def mpiTypeFreeOut : Nat := 192
def mpiTypeHindexedIn : Nat := 193
def mpiTypeHindexedOut : Nat := 194
def mpiTypeHvectorIn : Nat := 195
def mpiTypeHvectorOut : Nat := 196
def mpiTypeIndexedIn : Nat := 197
def mpiTypeIndexedOut : Nat := 198
def mpiTypeLbIn : Nat := 199
def mpiTypeLbOut : Nat := 200
def mpiTypeSizeIn : Nat := 201
def mpiTypeSizeOut : Nat := 202
def mpiTypeStructIn : Nat := 203
def mpiTypeStructOut : Nat := 204
def mpiTypeUbIn : Nat := 205
def mpiTypeUbOut : Nat := 206
def mpiTypeVectorIn : Nat := 207
def mpiTypeVectorOut : Nat := 208
def mpiUnpackIn : Nat := 209
def mpiUnpackOut : Nat := 210
def mpiWaitallIn : Nat := 213
def mpiWaitallOut : Nat := 214
def mpiWaitanyIn : Nat := 215
def mpiWaitanyOut : Nat := 216
def mpiWaitsomeIn : Nat := 217
def mpiWaitsomeOut : Nat := 218
def mpiCartCoordsIn : Nat := 219
def mpiCartCoordsOut : Nat := 220
def mpiCartCreateIn : Nat := 221
def mpiCartCreateOut : Nat := 222
def mpiCartGetIn : Nat := 223
def mpiCartGetOut : Nat := 224
def mpiCartMapIn : Nat := 225
def mpiCartMapOut : Nat := 226
def mpiCartShiftIn : Nat := 227
def mpiCartShiftOut : Nat := 228
def mpiCartdimGetIn : Nat := 229
def mpiCartdimGetOut : Nat := 230
def mpiDimsCreateIn : Nat := 231
def mpiDimsCreateOut : Nat := 232
def mpiGraphCreateIn : Nat := 233
def mpiGraphCreateOut : Nat := 234
def mpiGraphGetIn : Nat := 235
def mpiGraphGetOut : Nat := 236
def mpiGraphMapIn : Nat := 237
def mpiGraphMapOut : Nat := 238
def mpiGraphNeighborsIn : Nat := 239
def mpiGraphNeighborsOut : Nat := 240
def mpiGraphNeighborsCountIn : Nat := 241
def mpiGraphNeighborsCountOut : Nat := 242
def mpiGraphdimsGetIn : Nat := 243
def mpiGraphdimsGetOut : Nat := 244
def mpiTopoTestIn : Nat := 245
def mpiTopoTestOut : Nat := 246
def mpiRecvIdleIn : Nat := 247
def mpiRecvIdleOut : Nat := 248
def mpiCartRankIn : Nat := 249
def mpiCartRankOut : Nat := 250
def mpiCartSubIn : Nat := 251
def mpiCartSubOut : Nat := 252

/-! ## Messages

One sender to one receiver (`Ptp`), one to many (`1tn`, `1ta`) and many to one (`nt1`,
`at1`). -/

def akyPtpSend : Nat := 5000
def akyPtpRecv : Nat := 5001
def aky1tnSend : Nat := 5002
def aky1tnRecv : Nat := 5003
def akyNt1Send : Nat := 5004
def akyNt1Recv : Nat := 5005
def aky1taSend : Nat := 5006
def aky1taRecv : Nat := 5007
def akyAt1Send : Nat := 5008
def akyAt1Recv : Nat := 5009

end Code
end Akypuera

import Mathlib
import Akypuera.Converter.Arms
import Akypuera.Events.Rastro
import Akypuera.Keys.Refine

/-!
# One round of the converter's loop (`aky_converter.c`)

The body of `main`'s `while`, for one decoded event. Its effects are the Paje events written
through `poti`, the reports on `stderr`, the link-key store, and the two flags `fail` and
`root_created`; the process can also die, at a failed `assert` or on a state without a name,
and then `step` answers `none`.

The five kinds of link differ in their two strings only, so `treatXt1Send` serves three of
the `case`s and `treat1txRecv` serves three; the point-to-point ones are written out in
`main` and here get a definition of their own.

The diagnostics that `aky_keys.c` itself prints on `stderr` are left out. The store of the link keys
is a parameter, for the one with `int` counts and the one with counts that have no end.
-/

set_option autoImplicit false

namespace Akypuera
namespace Converter

open CText Code Keys

/-- The flags of `struct arguments` that the loop reads. -/
structure Arguments where
  ignoreErrors : Bool
  noLinks : Bool
  noStates : Bool
  deriving DecidableEq

/-- The identifiers that `poti_header_DeclareEvent` hands out. -/
inductive UserEvent where
  | specialPushState
  | specialPushStateSend
  | specialPushStateRecv
  | specialStartLinkSizeMark
  deriving DecidableEq

/-- The Paje events the loop writes. `user` is the declared variant and its extra fields,
    where a `poti_user_…` function wrote the event. -/
inductive Paje where
  | createContainer (time : ℚ) (aliasName type container name : Str)
  | destroyContainer (time : ℚ) (type name : Str)
  | pushState (time : ℚ) (container type value : Str) (user : Option (UserEvent × List Str))
  | popState (time : ℚ) (container type : Str)
  | startLink (time : ℚ) (container type source value key : Str)
      (user : Option (UserEvent × List Str))
  | endLink (time : ℚ) (container type dest value key : Str)
  deriving DecidableEq

/-- What a round writes: a trace event, or a text on `stderr`. -/
inductive Out where
  | paje (e : Paje)
  | stderr (text : Str)
  deriving DecidableEq

/-- What the loop keeps from one round to the next. -/
structure StateOf (σ : Type) where
  keys : σ
  fail : Bool
  rootCreated : Bool
  timestamp : ℚ

/-- With the store that never overflows. -/
abbrev State : Type := StateOf KeyStore

variable {σ : Type}

def sRoot : Str := "root".toList
def sLink : Str := "LINK".toList
def sState : Str := "STATE".toList
def sProcess : Str := "PROCESS".toList

/-- `mpi_process`: the alias of a rank's container. -/
def mpiProcess (id1 : UInt64) : Str := fit akyDefaultStrSize ("rank".toList ++ fmtNat id1.toNat)

/-- C's conversion of a `u_int64_t` to `int`. -/
def toInt (x : UInt64) : Int32 := x.toUInt32.toInt32

/-! ## Links -/

/-- `messageSize` and `mark`, both `int`, with -1 for "not there". -/
def sizeAndMark (e : Event) : Int32 × Int32 :=
  if e.nUint32 = 2 then ((e.vUint32 1).toInt32, if e.nUint64 = 1 then toInt (e.vUint64 0) else -1)
  else (-1, -1)

/-- `linksizemark`: both numbers go through six byte buffers. -/
def linksizemark (e : Event) (keys key : Str) (size mark : Int32) : Paje :=
  .startLink e.timestamp sRoot sLink (mpiProcess e.id1) keys key
    (some (.specialStartLinkSizeMark, [fit 6 (fmtInt size.toInt), fit 6 (fmtInt mark.toInt)]))

/-- The `StartLink` for a key. -/
def startLink (e : Event) (keys key : Str) : Paje :=
  let (messageSize, mark) := sizeAndMark e
  if messageSize ≠ -1 ∧ mark ≠ -1 then linksizemark e keys key messageSize mark
  else .startLink e.timestamp sRoot sLink (mpiProcess e.id1) keys key none

/-- The `EndLink` for a key. -/
def endLink (e : Event) (keys key : Str) : Paje :=
  .endLink e.timestamp sRoot sLink (mpiProcess e.id1) keys key

/-- The report of a receive that finds no key. -/
def noKey (func : Str) (dst : UInt64) (src : Int32) : Str :=
  "[aky_converter] at ".toList ++ func ++
    ", no key to generate a pajeEndLink,\n[aky_converter] got a receive at dst = ".toList ++
    fmtNat dst.toNat ++ " from src = ".toList ++ fmtInt src.toInt ++
    "\n[aky_converter] but no send for this receive yet,\n".toList ++
    "[aky_converter] do you synchronize your input traces?\n".toList

/-- One `aky_put_key` of the loop, with the `StartLink` that follows it. -/
def putKey [LinkKeys σ] (st : StateOf σ) (e : Event) (f : Family) (dst : Int32) :
    StateOf σ × List Out :=
  let (ks, key) := LinkKeys.call st.keys (.put (f.keyc, toInt e.id1, dst))
  ({ st with keys := ks }, [.paje (startLink e f.keys (cstr key.key))])

/-- One `aky_get_key` of the loop, with the report where there is no key, and the `EndLink`
    that is written in any case. -/
def getKey [LinkKeys σ] (args : Arguments) (st : StateOf σ) (e : Event) (func : Str)
    (f : Family) (src : Int32) : StateOf σ × List Out :=
  let (ks, result) := LinkKeys.call st.keys (.get (f.keyc, src, toInt e.id1))
  let st := { st with keys := ks }
  let written := .paje (endLink e f.keys (cstr result.key))
  if result.nonNull then (st, [written])
  else
    ({ st with fail := if args.ignoreErrors then st.fail else true },
      [.stderr (noKey func e.id1 src), written])

/-- A loop over some ranks. -/
def forRanks (body : StateOf σ → UInt32 → StateOf σ × List Out) :
    StateOf σ → List UInt32 → StateOf σ × List Out
  | st, [] => (st, [])
  | st, rank :: ranks =>
      let (st, outs) := body st rank
      let (st, outs') := forRanks body st ranks
      (st, outs ++ outs')

/-- The ranks `0 ≤ rank < n`, in order. -/
def ranksBelow (n : UInt32) : List UInt32 := (List.range n.toNat).map UInt32.ofNat

/-- `treat_1tx_send`. -/
def treat1txSend [LinkKeys σ] (st : StateOf σ) (e : Event) (f : Family) :
    StateOf σ × List Out :=
  forRanks (fun st rank =>
    if rank.toUInt64 ≠ e.id1 then putKey st e f rank.toInt32 else (st, []))
    st (ranksBelow (e.vUint32 0))

/-- `treat_1tx_recv`. -/
def treat1txRecv [LinkKeys σ] (args : Arguments) (st : StateOf σ) (e : Event) (f : Family) :
    StateOf σ × List Out :=
  getKey args st e "treat_1tx_recv".toList f (e.vUint32 0).toInt32

/-- `treat_xt1_recv`. -/
def treatXt1Recv [LinkKeys σ] (args : Arguments) (st : StateOf σ) (e : Event) (f : Family) :
    StateOf σ × List Out :=
  forRanks (fun st rank =>
    if rank.toUInt64 ≠ e.id1 then getKey args st e "treat_xt1_recv".toList f rank.toInt32
    else (st, []))
    st (ranksBelow (e.vUint32 0))

/-- `treat_xt1_send`. -/
def treatXt1Send [LinkKeys σ] (st : StateOf σ) (e : Event) (f : Family) :
    StateOf σ × List Out :=
  putKey st e f (e.vUint32 0).toInt32

/-- `case AKY_PTP_SEND`. -/
def ptpSend [LinkKeys σ] (st : StateOf σ) (e : Event) : StateOf σ × List Out :=
  putKey st e .ptp (e.vUint32 0).toInt32

/-- `case AKY_PTP_RECV`. -/
def ptpRecv [LinkKeys σ] (args : Arguments) (st : StateOf σ) (e : Event) :
    StateOf σ × List Out :=
  getKey args st e "main".toList .ptp (e.vUint32 0).toInt32

/-! ## Containers and states -/

/-- `case MPI_INIT`. -/
def createContainers (st : StateOf σ) (e : Event) : StateOf σ × List Out :=
  let mine := .paje (.createContainer e.timestamp (mpiProcess e.id1) sProcess sRoot
    (mpiProcess e.id1))
  if st.rootCreated then (st, [mine])
  else
    ({ st with rootCreated := true },
      [.paje (.createContainer e.timestamp sRoot "ROOT".toList "0".toList sRoot), mine])

/-- `value`, where the state has a name. -/
def stateValue (e : Event) : Option Str := (nameGet e.type).map (fit akyDefaultStrSize)

/-- The plain states: a lone 64-bit field is shown as a mark. -/
def pushState (e : Event) : Option Out := do
  let value ← stateValue e
  if e.nUint64 = 1 then
    return .paje (.pushState e.timestamp (mpiProcess e.id1) sState value
      (some (.specialPushState, [fit 21 (fmtNat (e.vUint64 0).toNat)])))
  else
    return .paje (.pushState e.timestamp (mpiProcess e.id1) sState value none)

/-- `case MPI_ISEND_IN`, `case MPI_SEND_IN`. -/
def pushStateSend (e : Event) : Option Out := do
  let value ← stateValue e
  guard (e.nUint32 ≥ 1)
  guard (e.nUint64 = 1)
  return .paje (.pushState e.timestamp (mpiProcess e.id1) sState value
    (some (.specialPushStateSend, [fit 21 (fmtNat (e.vUint32 0).toNat),
      fit 21 (fmtNat (e.vUint64 0).toNat)])))

/-- `case MPI_IRECV_IN`, `case MPI_RECV_IN`. -/
def pushStateRecv (e : Event) : Option Out := do
  let value ← stateValue e
  guard (e.nUint32 = 1)
  return .paje (.pushState e.timestamp (mpiProcess e.id1) sState value
    (some (.specialPushStateRecv, [fit 21 (fmtNat (e.vUint32 0).toNat)])))

/-- The state an event pushes. -/
def statePushed (e : Event) : Option Out :=
  match arm e.type with
  | .pushState => pushState e
  | .pushStateSend => pushStateSend e
  | .pushStateRecv => pushStateRecv e
  | _ => none

def popState (e : Event) : Out := .paje (.popState e.timestamp (mpiProcess e.id1) sState)

/-! ## The switch -/

/-- The link `case`s, which `no_links` switches off. -/
def stepLinks [LinkKeys σ] (args : Arguments) (st : StateOf σ) (e : Event) :
    StateOf σ × List Out :=
  match arm e.type with
  | .ptpSend => ptpSend st e
  | .ptpRecv => ptpRecv args st e
  | .xt1Send f => treatXt1Send st e f
  | .oneTxSend f => treat1txSend st e f
  | .xt1Recv f => treatXt1Recv args st e f
  | .oneTxRecv f => treat1txRecv args st e f
  | _ => (st, [])

/-- One round: the state after it and what it wrote, or `none` where the process dies. -/
def step [LinkKeys σ] (args : Arguments) (st : StateOf σ) (e : Event) :
    Option (StateOf σ × List Out) :=
  let st := { st with timestamp := e.timestamp }
  match arm e.type with
  | .ptpSend | .ptpRecv | .xt1Send _ | .oneTxSend _ | .xt1Recv _ | .oneTxRecv _ =>
      if args.noLinks then some (st, []) else some (stepLinks args st e)
  | .init => some (createContainers st e)
  | .pushState | .pushStateSend | .pushStateRecv =>
      if args.noStates then some (st, []) else (statePushed e).map fun out => (st, [out])
  | .popState => some (st, if args.noStates then [] else [popState e])
  | .finalizeOut =>
      some (st, (if args.noStates then [] else [popState e]) ++
        [.paje (.destroyContainer e.timestamp sProcess (mpiProcess e.id1))])
  | .skip => some (st, [])

/-! ## The loop -/

/-- What a run of the loop leaves: each event it took with what the round wrote, the state
    at the end, and whether the process died. -/
structure RunOf (σ : Type) where
  rounds : List (Event × List Out)
  state : StateOf σ
  died : Bool

/-- With the store that never overflows. -/
abbrev Run : Type := RunOf KeyStore

/-- `while (rst_decode_event (…) && !fail)`, over the events still to be decoded. -/
def loop [LinkKeys σ] (args : Arguments) : StateOf σ → List Event → RunOf σ
  | st, [] => { rounds := [], state := st, died := false }
  | st, e :: es =>
      if st.fail then { rounds := [], state := st, died := false }
      else match step args st e with
        | none => { rounds := [], state := st, died := true }
        | some (st, outs) =>
            let run := loop args st es
            { run with rounds := (e, outs) :: run.rounds }

/-- The state before the loop, with a key table for `size` entries. -/
def StateOf.init [LinkKeys σ] (size : Option Nat) : StateOf σ :=
  { keys := LinkKeys.init size, fail := false, rootCreated := false, timestamp := -1 }

/-- `main` on a stream of events. -/
def convertOn (σ : Type) [LinkKeys σ] (args : Arguments) (size : Option Nat) (es : List Event) :
    RunOf σ := loop args (StateOf.init size) es

/-- With the store that never overflows. -/
def State.init (size : Option Nat) : State := StateOf.init size

def convert (args : Arguments) (size : Option Nat) (es : List Event) : Run :=
  loop args (State.init size) es

/-- Everything `main` writes below the header. -/
def RunOf.outs (r : RunOf σ) : List Out :=
  r.rounds.flatMap Prod.snd ++
    if r.died = false ∧ 0 ≤ r.state.timestamp then
      [.paje (.destroyContainer r.state.timestamp "ROOT".toList sRoot)]
    else []

/-- The trace: the Paje events among it. -/
def RunOf.trace (r : RunOf σ) : List Paje :=
  r.outs.filterMap fun
    | .paje p => some p
    | .stderr _ => none

end Converter
end Akypuera

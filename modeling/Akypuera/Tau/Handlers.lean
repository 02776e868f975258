import Akypuera.Keys.Capacity
import Akypuera.Lib.Cells

/-!
# The callbacks of tau2paje (`tau2paje_handlers.c`)

The TAU trace reader is not part of the repository: it calls one of these functions for each
record, with the record's fields, and does nothing with what they return. A callback writes Paje
events and changes the static data (`State`); it can also end the process, by `exit (1)` or by an
access outside `rank_last_time`.

Times are rationals here. A clock period of 0 makes the resolution infinite, as in C. The store of
the link keys is a parameter, for the one with `int` counts and the one with counts that have no end.
-/

set_option autoImplicit false

namespace Akypuera
namespace Tau

open CText Search Keys

/-- The flags of `struct arguments` that the callbacks read. -/
structure Arguments where
  dummy : Bool
  noStates : Bool
  noLinks : Bool
  onlyMpi : Bool
  normalizeMpi : Bool
  ignoreErrors : Bool
  deriving DecidableEq

/-- Without options. -/
def plainly : Arguments where
  dummy := false
  noStates := false
  noLinks := false
  onlyMpi := false
  normalizeMpi := false
  ignoreErrors := false

/-- A `double` that may be the quotient of a division by 0. -/
inductive Resolution where
  | finite (r : ℚ)
  | infinite
  deriving DecidableEq

/-- The callbacks that `main` registers, with the arguments the reader calls them with. -/
inductive Callback where
  | clockPeriod (clkPeriod : ℚ)
  | defThread (nodeid threadToken : UInt32) (threadName : Str)
  | endTrace (nodeid threadid : UInt32)
  | defStateGroup (stateGroupToken : UInt32) (stateGroupName : Str)
  | defState (stateid : UInt32) (statename : Str) (stateGroupToken : UInt32)
  | enterState (time : ℚ) (nodeid tid stateid : UInt32)
  | leaveState (time : ℚ) (nodeid tid stateid : UInt32)
  | defUserEvent (userEventToken : UInt32) (userEventName : Str) (monotonicallyIncreasing : Int32)
  | eventTrigger (time : ℚ) (nodeToken threadToken userEventToken : UInt32)
      (userEventValue : Int64)
  | sendMessage (time : ℚ) (sourceNodeToken sourceThreadToken destinationNodeToken
      destinationThreadToken messageSize messageTag messageComm : UInt32)
  | recvMessage (time : ℚ) (sourceNodeToken sourceThreadToken destinationNodeToken
      destinationThreadToken messageSize messageTag messageComm : UInt32)
  deriving DecidableEq

/-- The Paje events the callbacks write. The `StartLink` is the declared variant with a size and
    a mark. -/
inductive Paje where
  | createContainer (time : ℚ) (aliasName type container name : Str)
  | destroyContainer (time : ℚ) (type name : Str)
  | pushState (time : ℚ) (container type value : Str)
  | popState (time : ℚ) (container type : Str)
  | startLink (time : ℚ) (container type source value key size mark : Str)
  | endLink (time : ℚ) (container type dest value key : Str)
  deriving DecidableEq

/-- The static data of `tau2paje_handlers.c`, with the key store, and `arguments.resolution`,
    which a callback changes. -/
structure StateOf (σ : Type) where
  stateNameHash : HTab Str Str
  keys : σ
  rankLastTime : Cells ℚ
  totalNumberOfRanks : Int32
  endOfTrace : Bool
  totalNumberOfLinksNotTranslated : Nat
  lastTime : ℚ
  resolution : Resolution

/-- With the store that never overflows. -/
abbrev State : Type := StateOf KeyStore

/-- How a callback ends the process. -/
inductive Stop where
  | exit (status : Nat)
  | fault
  deriving DecidableEq

/-- What a callback leaves: the static data, what it wrote, and what it returned. -/
structure DoneOf (σ : Type) where
  state : StateOf σ
  outs : List Paje
  result : Nat

abbrev Done : Type := DoneOf KeyStore

variable {σ : Type}

def sRoot : Str := "root".toList
def sLink : Str := "LINK".toList
def sState : Str := "STATE".toList
def sProcess : Str := "PROCESS".toList
def sPtp : Str := "PTP".toList

/-- `mpi_process`: the alias of a node's container. -/
def mpiProcess (nodeid : UInt32) : Str :=
  fit akyDefaultStrSize ("rank".toList ++ fmtInt nodeid.toInt32.toInt)

/-- `time_to_seconds`. -/
def timeToSeconds (resolution : Resolution) (time : ℚ) : ℚ :=
  match resolution with
  | .finite r => time / if r = 0 then 1000000 else r
  | .infinite => 0

/-- `state_key`. -/
def stateKey (stateid : UInt32) : Str :=
  fit akyDefaultStrSize (fmtInt stateid.toInt32.toInt)

/-- `strstr (s, sub) != NULL`. -/
def strstr (s sub : Str) : Bool := decide (sub <:+: s)

/-- `normalize_mpi`: `strtok` takes the first text between quotes and cuts it in place, and so
    does the assignment at the first bracket. The text that stays in the table, and the name. -/
def normalize (stateName : Str) : Str × Str :=
  let quotes := stateName.takeWhile (· == '"')
  let first := (stateName.dropWhile (· == '"')).takeWhile (· != '"')
  let name := first.takeWhile (· != '(')
  (quotes ++ name, name)

/-- `rank_last_time[nodeid] = time_to_seconds (time)`. -/
def StateOf.touch (st : StateOf σ) (nodeid : UInt32) (time : ℚ) : Except Stop (StateOf σ) :=
  match st.rankLastTime.write nodeid.toNat (timeToSeconds st.resolution time) with
  | some cells => .ok { st with rankLastTime := cells }
  | none => .error .fault

/-- `EnterState`. -/
def enterState (args : Arguments) (st : StateOf σ) (time : ℚ) (nodeid stateid : UInt32) :
    Except Stop (DoneOf σ) :=
  match st.stateNameHash.find (stateKey stateid) with
  | none => .ok { state := st, outs := [], result := 1 }
  | some text => do
      let (kept, stateName) :=
        if args.normalizeMpi ∧ strstr text "MPI".toList then normalize text else (text, text)
      let hash := st.stateNameHash.set (stateKey stateid) kept
      let st ← StateOf.touch { st with stateNameHash := hash } nodeid time
      let seconds := timeToSeconds st.resolution time
      let outs := if ¬ args.dummy ∧ ¬ args.noStates then
        [.pushState seconds (mpiProcess nodeid) sState stateName] else []
      return { state := { st with lastTime := seconds }, outs := outs, result := 0 }

/-- `LeaveState`. -/
def leaveState (args : Arguments) (st : StateOf σ) (time : ℚ) (nodeid stateid : UInt32) :
    Except Stop (DoneOf σ) :=
  match st.stateNameHash.find (stateKey stateid) with
  | none => .ok { state := st, outs := [], result := 1 }
  | some _ => do
      let st ← st.touch nodeid time
      let seconds := timeToSeconds st.resolution time
      let outs := if ¬ args.dummy ∧ ¬ args.noStates then
        [.popState seconds (mpiProcess nodeid) sState] else []
      return { state := { st with lastTime := seconds }, outs := outs, result := 0 }

/-- `1 / clkPeriod`. -/
def Resolution.ofPeriod (clkPeriod : ℚ) : Resolution :=
  if clkPeriod = 0 then .infinite else .finite (1 / clkPeriod)

/-- `ClockPeriod`. -/
def clockPeriod (st : StateOf σ) (clkPeriod : ℚ) : DoneOf σ :=
  { state := { st with resolution := .ofPeriod clkPeriod }, outs := [], result := 0 }

/-- `DefThread`: the array grows to the largest node number, and the node's time is reset. -/
def defThread (args : Arguments) (st : StateOf σ) (nodeid : UInt32) : Except Stop (DoneOf σ) :=
  let outs := if args.dummy then [] else
    [.createContainer 0 (mpiProcess nodeid) sProcess sRoot (mpiProcess nodeid)]
  let (total, cells) : Int32 × Cells ℚ :=
    if st.totalNumberOfRanks.toUInt32 < nodeid + 1 then
      let total := (nodeid + 1).toInt32
      (total, st.rankLastTime.resize total)
    else (st.totalNumberOfRanks, st.rankLastTime)
  match cells.write nodeid.toNat 0 with
  | some cells => .ok
      { state := { st with totalNumberOfRanks := total, rankLastTime := cells }
        outs := outs, result := 0 }
  | none => .error .fault

/-- `EndTrace`. -/
def endTrace (args : Arguments) (st : StateOf σ) (nodeid : UInt32) : Except Stop (DoneOf σ) :=
  if args.dummy then .ok { state := { st with endOfTrace := true }, outs := [], result := 0 }
  else match st.rankLastTime.read nodeid.toNat with
    | some time => .ok
        { state := { st with endOfTrace := true }
          outs := [.destroyContainer time sProcess (mpiProcess nodeid)], result := 0 }
    | none => .error .fault

/-- What `DefState` does to the table: the first definition of a number counts, and there may be
    no room for it. -/
def defineName (args : Arguments) (hash : HTab Str Str) (stateid : UInt32) (statename : Str) :
    HTab Str Str :=
  if args.onlyMpi ∧ ¬ strstr statename "MPI_".toList then hash
  else (hash.enter (stateKey stateid) statename).getD hash

/-- `DefState`. -/
def defState (args : Arguments) (st : StateOf σ) (stateid : UInt32) (statename : Str) :
    DoneOf σ :=
  { state := { st with stateNameHash := defineName args st.stateNameHash stateid statename }
    outs := [], result := 0 }

/-- `EventTrigger`. -/
def eventTrigger (st : StateOf σ) (time : ℚ) (nodeToken : UInt32) : Except Stop (DoneOf σ) := do
  let st ← st.touch nodeToken time
  return { state := { st with lastTime := timeToSeconds st.resolution time }
           outs := [], result := 0 }

/-- The triple a message's key is filed under. -/
def messageTriple (source destination : UInt32) : Triple :=
  ("n".toList, source.toInt32, destination.toInt32)

/-- `SendMessage`. -/
def sendMessage [LinkKeys σ] (args : Arguments) (st : StateOf σ) (time : ℚ)
    (source destination size tag : UInt32) : Except Stop (DoneOf σ) :=
  if args.noLinks then .ok { state := st, outs := [], result := 0 }
  else do
    let (ks, key) := LinkKeys.call st.keys (.put (messageTriple source destination))
    let st ← StateOf.touch { st with keys := ks } source time
    let st ← st.touch destination time
    let seconds := timeToSeconds st.resolution time
    let outs := if args.dummy then [] else
      [.startLink seconds sRoot sLink (mpiProcess source) sPtp (cstr key.key)
        (fit akyDefaultStrSize (fmtNat size.toNat)) (fit akyDefaultStrSize (fmtNat tag.toNat))]
    return { state := { st with lastTime := seconds }, outs := outs, result := 0 }

/-- `RecvMessage`: without a key, nothing is written for it, and the process may end. -/
def recvMessage [LinkKeys σ] (args : Arguments) (st : StateOf σ) (time : ℚ)
    (source destination : UInt32) : Except Stop (DoneOf σ) :=
  if args.noLinks then .ok { state := st, outs := [], result := 0 }
  else
    let (ks, key) := LinkKeys.call st.keys (.get (messageTriple source destination))
    if key.nonNull then do
      let st ← StateOf.touch { st with keys := ks } source time
      let st ← st.touch destination time
      let seconds := timeToSeconds st.resolution time
      let outs := if args.dummy then [] else
        [.endLink seconds sRoot sLink (mpiProcess destination) sPtp (cstr key.key)]
      return { state := { st with lastTime := seconds }, outs := outs, result := 0 }
    else if args.ignoreErrors then .ok
      { state := { st with
          keys := ks
          totalNumberOfLinksNotTranslated := st.totalNumberOfLinksNotTranslated + 1 }
        outs := [], result := 0 }
    else .error (.exit 1)

/-- One callback. -/
def Callback.call [LinkKeys σ] (args : Arguments) (st : StateOf σ) :
    Callback → Except Stop (DoneOf σ)
  | clockPeriod clkPeriod => .ok (Tau.clockPeriod st clkPeriod)
  | defThread nodeid _ _ => Tau.defThread args st nodeid
  | endTrace nodeid _ => Tau.endTrace args st nodeid
  | defStateGroup _ _ => .ok { state := st, outs := [], result := 0 }
  | defState stateid statename _ => .ok (Tau.defState args st stateid statename)
  | enterState time nodeid _ stateid => Tau.enterState args st time nodeid stateid
  | leaveState time nodeid _ stateid => Tau.leaveState args st time nodeid stateid
  | defUserEvent _ _ _ => .ok { state := st, outs := [], result := 0 }
  | eventTrigger time nodeToken _ _ _ => Tau.eventTrigger st time nodeToken
  | sendMessage time source _ destination _ size tag _ =>
      Tau.sendMessage args st time source destination size tag
  | recvMessage time source _ destination _ _ _ _ =>
      Tau.recvMessage args st time source destination

/-- The static data when `main` starts to read, with the resolution from the command line. -/
def StateOf.init [LinkKeys σ] (resolution : ℚ) : StateOf σ where
  stateNameHash := HTab.create (some (hcreateSize 1000))
  keys := LinkKeys.init (some (hcreateSize akyKeyTableSize))
  rankLastTime := []
  totalNumberOfRanks := 0
  endOfTrace := false
  totalNumberOfLinksNotTranslated := 0
  lastTime := 0
  resolution := .finite resolution

def State.init (resolution : ℚ) : State := StateOf.init resolution

/-- What a run of callbacks leaves: each that was made with what it wrote, the static data, and
    how the process was ended, if it was. -/
structure RunOf (σ : Type) where
  rounds : List (Callback × List Paje)
  state : StateOf σ
  stop : Option Stop

abbrev Run : Type := RunOf KeyStore

/-- The callbacks of some records, one after the other. -/
def run [LinkKeys σ] (args : Arguments) : StateOf σ → List Callback → RunOf σ
  | st, [] => { rounds := [], state := st, stop := none }
  | st, c :: cs =>
      match c.call args st with
      | .error stop => { rounds := [], state := st, stop := some stop }
      | .ok done =>
          let rest := run args done.state cs
          { rest with rounds := (c, done.outs) :: rest.rounds }

/-- The trace. -/
def RunOf.trace (r : RunOf σ) : List Paje := r.rounds.flatMap Prod.snd

end Tau
end Akypuera

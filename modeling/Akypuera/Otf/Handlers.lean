import Akypuera.Keys.Store
import Akypuera.Lib.Double
import Akypuera.Lib.Registry

/-!
# The callbacks of otf2paje (`otf2paje_handlers.c`)

The OTF reader is not part of the repository: it calls one of these functions for each record, with
the record's fields, and does nothing with what they return. Only the callbacks that do something
are here; arguments that a function does not use are left out. None of them can fail.

The containers are created by `BeginProcess` and destroyed by `EndProcess`, under the name that
`DefProcess` gave to the process.
-/

set_option autoImplicit false

namespace Akypuera
namespace Otf

open CText Search Keys Double

/-- The flags of `struct arguments` that the callbacks read. -/
structure Arguments where
  dummy : Bool
  noStates : Bool
  deriving DecidableEq

/-- Without options. -/
def plainly : Arguments := { dummy := false, noStates := false }

/-- The callbacks that `main` registers. -/
inductive Callback where
  | defTimerResolution (ticksPerSecond : UInt64)
  | defProcess (process : UInt32) (name : Str)
  | defFunction (func : UInt32) (name : Str)
  | defCollectiveOperation (collOp : UInt32) (name : Str)
  | defCreator (creator : Str)
  | enter (time : UInt64) (function process : UInt32)
  | leave (time : UInt64) (process : UInt32)
  | beginProcess (time : UInt64) (process : UInt32)
  | endProcess (time : UInt64) (process : UInt32)
  deriving DecidableEq

/-- A `double` that is a quotient of two that are not negative. -/
inductive Seconds where
  | finite (s : ℚ)
  | infinite
  | nan
  deriving DecidableEq

/-- The Paje events the callbacks write, and comments. -/
inductive Paje where
  | comment (text : Str)
  | defineEntityValue (aliasName type name color : Str)
  | createContainer (time : Seconds) (aliasName type container name : Str)
  | destroyContainer (time : Seconds) (type name : Str)
  | pushState (time : Seconds) (container type value : Str)
  | popState (time : Seconds) (container type : Str)
  deriving DecidableEq

/-- The static data of `otf2paje_handlers.c`. -/
structure State where
  processNameHash : HTab Str Str
  timeResolution : UInt64
  lastTime : Seconds

def sRoot : Str := "root".toList
def sState : Str := "STATE".toList
def sProcess : Str := "PROCESS".toList
def sBlack : Str := "0 0 0".toList

/-- `ticks_to_seconds`, which also sets `last_time`. -/
def ticksToSeconds (timeResolution ticks : UInt64) : Seconds :=
  if timeResolution = 0 then (if ticks = 0 then .nan else .infinite)
  else .finite (toDouble (toDouble ticks.toNat / toDouble timeResolution.toNat))

/-- The key of `data_def` and `data_get`. -/
def dataKey (id : UInt32) : Str := fit akyDefaultStrSize (fmtInt id.toInt32.toInt)

/-- `data_def`: the first definition of a number counts, and there may be no room for it. -/
def dataDef (hash : HTab Str Str) (id : UInt32) (name : Str) : HTab Str Str :=
  (hash.enter (dataKey id) name).getD hash

/-- `data_get`. -/
def dataGet (hash : HTab Str Str) (id : UInt32) : Option Str := hash.find (dataKey id)

/-- The aliases: a letter and a number. -/
def aliasOf (letter : Char) (id : UInt32) : Str :=
  fit akyDefaultStrSize ([letter] ++ fmtInt id.toInt32.toInt)

/-- An event with a time, written unless nothing is: then the clock is not set either. -/
def State.at (st : State) (quiet : Bool) (ticks : UInt64) (event : Seconds → Paje) :
    State × List Paje :=
  if quiet then (st, [])
  else
    let seconds := ticksToSeconds st.timeResolution ticks
    ({ st with lastTime := seconds }, [event seconds])

/-- `OTF_Handler_BeginProcess`. -/
def beginProcess (args : Arguments) (st : State) (time : UInt64) (process : UInt32) :
    State × List Paje :=
  match dataGet st.processNameHash process with
  | some name =>
      st.at args.dummy time fun seconds =>
        .createContainer seconds (aliasOf 'p' process) sProcess sRoot name
  | none => (st, [])

/-- `OTF_Handler_EndProcess`. -/
def endProcess (args : Arguments) (st : State) (time : UInt64) (process : UInt32) :
    State × List Paje :=
  match dataGet st.processNameHash process with
  | some _ =>
      st.at args.dummy time fun seconds =>
        .destroyContainer seconds sProcess (aliasOf 'p' process)
  | none => (st, [])

/-- One callback. -/
def Callback.call (args : Arguments) (st : State) : Callback → State × List Paje
  | defTimerResolution ticksPerSecond =>
      ({ st with timeResolution := ticksPerSecond },
        if args.dummy then [] else
          [.comment ("# OTF TimerResolution: TicksPerSecond ".toList ++
            fmtNat ticksPerSecond.toNat)])
  | defProcess process name =>
      ({ st with processNameHash := dataDef st.processNameHash process name }, [])
  | defFunction func name =>
      (st, if args.dummy ∨ args.noStates then [] else
        [.defineEntityValue (aliasOf 'f' func) sState name sBlack])
  | defCollectiveOperation collOp name =>
      (st, if args.dummy ∨ args.noStates then [] else
        [.defineEntityValue (aliasOf 'c' collOp) sState name sBlack])
  | defCreator creator =>
      (st, if args.dummy then [] else [.comment ("# OTF Creator ".toList ++ creator)])
  | enter time function process =>
      st.at (args.dummy || args.noStates) time fun seconds =>
        .pushState seconds (aliasOf 'p' process) sState (aliasOf 'f' function)
  | leave time process =>
      st.at (args.dummy || args.noStates) time fun seconds =>
        .popState seconds (aliasOf 'p' process) sState
  | beginProcess time process => Otf.beginProcess args st time process
  | endProcess time process => Otf.endProcess args st time process

/-- The static data when `main` starts to read. -/
def State.init : State where
  processNameHash := HTab.create (some (hcreateSize 1000))
  timeResolution := 0
  lastTime := .finite 0

/-- The static data after some callbacks. -/
def State.after (args : Arguments) (st : State) (cs : List Callback) : State :=
  cs.foldl (fun st c => (c.call args st).1) st

end Otf
end Akypuera

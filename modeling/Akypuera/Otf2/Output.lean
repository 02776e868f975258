import Akypuera.Lib.Actors
import Akypuera.Lib.Double
import Akypuera.Otf2.Filters
import Akypuera.Otf2.Stream

/-!
# What otf22paje writes (`otf22paje.c`, `otf22paje_handlers.c`)

In the default mode `main` has the reader make the callbacks of all definitions and then those of
all events, and destroys the containers of the locations at the time of the last event that was
converted; those of the nodes are left (`output`).

An event comes with a time in ticks. The clock starts at **the first event that is not left out**,
and one that is left out does not touch it (`runRecords_eq`). So without any the last time is not
there, and neither is the trace.
-/

set_option autoImplicit false

namespace Akypuera
namespace Otf2

open CText Scene Actors Double

/-! ## The clock -/

/-- The static data of `time_to_seconds`, and `time_resolution` and `last_timestamp`. The first time
    is kept as it comes; the function has it as a `double`. -/
structure Clock where
  firstTime : Option UInt64
  timeResolution : UInt64
  lastTimestamp : Option ℚ
  deriving DecidableEq

/-- After `otf22paje_global_def_clock_properties`. -/
def Clock.init (timerResolution : UInt64) : Clock := ⟨none, timerResolution, none⟩

/-- A time since the first one. -/
def seconds (resolution first time : UInt64) : ℚ :=
  toDouble (toDouble (toDouble time.toNat - toDouble first.toNat) / toDouble resolution.toNat)

/-- `time_to_seconds`; a resolution of 0 is none. -/
def Clock.timeToSeconds (clock : Clock) (time : UInt64) : Option (Clock × ℚ) :=
  let first := clock.firstTime.getD time
  if clock.timeResolution = 0 then none
  else some ({ clock with firstTime := some first }, seconds clock.timeResolution first time)

/-! ## Events -/

/-- An event with its time in ticks. -/
inductive Record where
  | enter (locationID time : UInt64) (regionID : UInt32)
  | leave (locationID time : UInt64) (regionID : UInt32)
  deriving DecidableEq

def Record.location : Record → UInt64
  | enter locationID _ _ | leave locationID _ _ => locationID

def Record.time : Record → UInt64
  | enter _ time _ | leave _ time _ => time

def Record.region : Record → UInt32
  | enter _ _ regionID | leave _ _ regionID => regionID

/-- The event at a time in seconds. -/
def Record.at (seconds : ℚ) : Record → Event
  | enter locationID _ regionID => .enter seconds locationID regionID
  | leave locationID _ regionID => .leave seconds locationID regionID

/-- The callback with the clock, which is read after the name: twice, for the same time. -/
def Record.call (args : Arguments) (names : Names) (clock : Clock) (r : Record) :
    Option (Clock × List Paje) := do
  let stateName ← names.stateName r.region
  if args.onlyMpi ∧ ¬ "MPI_".toList <:+: stateName then return (clock, [])
  else do
    let (clock, seconds) ← clock.timeToSeconds r.time
    let outs ← (r.at seconds).call args names
    return ({ clock with lastTimestamp := some seconds }, outs)

/-- The callbacks of all events. -/
def runRecords (args : Arguments) (names : Names) (clock : Clock) :
    List Record → Option (Clock × List Paje)
  | [] => some (clock, [])
  | r :: rs => do
      let (clock, outs) ← r.call args names clock
      let (clock, outs') ← runRecords args names clock rs
      return (clock, outs ++ outs')

/-! ## The program -/

/-- `poti_DestroyContainer`, which only `main` calls. -/
structure Destroy where
  time : ℚ
  type : Str
  name : Str
  deriving DecidableEq

/-- What `main` writes after the header. -/
def output (args : Arguments) (timerResolution : UInt64) (ds : List Definition)
    (rs : List Record) : Option (List (Paje ⊕ Destroy)) := do
  let (st, rounds) ← run args .default State.init ds
  let (clock, outs) ← runRecords args st.names (Clock.init timerResolution) rs
  let ends ← if args.dummy then some []
    else st.locations.mapM fun location =>
      clock.lastTimestamp.map fun time => Destroy.mk time sThread (threadStr location)
  return (rounds.flatMap Prod.snd ++ outs).map .inl ++ ends.map .inr

/-- An event of the trace, as it is read. -/
def Paje.line : Paje → Line Str ℚ
  | defineContainerType aliasName type _ => .containerType aliasName type
  | defineStateType aliasName type _ => .stateType aliasName type
  | defineLinkType aliasName type source dest _ => .linkType aliasName type source dest
  | createContainer time aliasName type container name =>
      .create time aliasName type container name
  | pushState time container type value => .push time container type value
  | popState time container type => .pop time container type

def Destroy.line (d : Destroy) : Line Str ℚ := .destroy d.time d.type d.name

/-- What a reader sees of everything that `main` writes. -/
def lines (args : Arguments) (timerResolution : UInt64) (ds : List Definition) (rs : List Record) :
    Option (List (Line Str ℚ)) :=
  (output args timerResolution ds rs).map fun out => out.map (Sum.elim Paje.line Destroy.line)

/-! ## Runs over events -/

/-- The name of its region passes the filter. -/
def Record.kept (args : Arguments) (names : Names) (r : Record) : Bool :=
  (names.stateName r.region).any args.passes

/-- The events that are not left out. -/
def keptRecords (args : Arguments) (names : Names) (rs : List Record) : List Record :=
  rs.filter (Record.kept args names)

/-- The time that the others are counted from. -/
def firstTime (args : Arguments) (names : Names) (rs : List Record) : UInt64 :=
  ((keptRecords args names rs).head?.map Record.time).getD 0

/-- How calls are written: a container for each location. -/
def cast (parent : UInt64 → Str) : Cast UInt64 ℚ Str Empty Str ℚ where
  aliasOf := threadStr
  nameOf := threadStr
  type := sThread
  parent := parent
  state := sState
  value name := name
  time t := t
  note _ m := m.elim

/-- What is written for an event, as an act of its location. -/
def Record.act (args : Arguments) (names : Names) (time : UInt64 → ℚ) (r : Record) :
    Option (UInt64 × Act ℚ Str Empty) :=
  if args.states then
    (names.stateName r.region).bind fun text =>
      if args.passes text then
        some (match r with
          | enter locationID t _ => (locationID, .enter (time t) text)
          | leave locationID t _ => (locationID, .leave (time t)))
      else none
  else none

variable {args : Arguments} {names : Names} {clock : Clock} {r : Record} {rs : List Record}

theorem Record.region_at (seconds : ℚ) (r : Record) : (r.at seconds).region = r.region := by
  cases r <;> rfl

/-- An event that is left out does nothing, -/
theorem Record.call_of_not_kept (h : (names.stateName r.region).isSome = true)
    (hkept : r.kept args names = false) (clock : Clock) :
    r.call args names clock = some (clock, []) := by
  obtain ⟨text, htext⟩ := Option.isSome_iff_exists.mp h
  rw [Record.kept, htext, Option.any_some] at hkept
  have hdropped : args.onlyMpi = true ∧ ¬ "MPI_".toList <:+: text := by
    by_contra hnot
    exact Bool.false_ne_true (hkept.symm.trans (passes_iff.mpr hnot))
  rw [Record.call, htext, Option.bind_eq_bind, Option.bind_some, if_pos hdropped]
  rfl

/-- and another one writes its act, at its time. -/
theorem Record.call_of_kept (hres : clock.timeResolution ≠ 0) (hkept : r.kept args names = true) :
    let first := clock.firstTime.getD r.time
    let now := seconds clock.timeResolution first r.time
    ∃ outs, r.call args names clock = some (⟨some first, clock.timeResolution, some now⟩, outs) ∧
      ∀ parent, outs.map Paje.line =
        ((r.act args names fun t => seconds clock.timeResolution first t).toList).map
          (cast parent).line := by
  obtain ⟨text, htext, hpasses⟩ : ∃ text, names.stateName r.region = some text ∧
      args.passes text = true := by
    rw [Record.kept] at hkept
    cases hname : names.stateName r.region with
    | none => simp [hname] at hkept
    | some text => exact ⟨text, rfl, by simpa [hname] using hkept⟩
  have hnot := passes_iff.mp hpasses
  intro first now
  have hevent : (r.at now).call args names =
      some (if args.states then [(r.at now).push text] else []) := by
    rw [call_eq, Record.region_at, htext, Option.map_some, hpasses, Bool.and_true]
  have hclock : clock.timeToSeconds r.time = some ({ clock with firstTime := some first }, now) :=
    if_neg hres
  refine ⟨if args.states then [(r.at now).push text] else [], ?_, fun parent => ?_⟩
  · simp only [Record.call, htext, if_neg hnot, hclock, hevent, Option.bind_eq_bind,
      Option.bind_some]
    rfl
  · rw [Record.act, htext, Option.bind_some, if_pos hpasses]
    cases hs : args.states with
    | false => rfl
    | true => cases r <;> rfl

theorem runRecords_cons {clock' : Clock} {outs : List Paje}
    (h : r.call args names clock = some (clock', outs)) (rs : List Record) :
    runRecords args names clock (r :: rs) =
      (runRecords args names clock' rs).map fun p => (p.1, outs ++ p.2) := by
  cases hrest : runRecords args names clock' rs <;> simp [runRecords, h, hrest]

/-- The clock after some events that are not left out. -/
def Clock.after (clock : Clock) (rs : List Record) : Clock :=
  let first := clock.firstTime.or (rs.head?.map Record.time)
  let last := rs.getLast?.map fun r => seconds clock.timeResolution (first.getD 0) r.time
  ⟨first, clock.timeResolution, last.or clock.lastTimestamp⟩

/-- **Events that are left out leave no trace, not even in the clock**, and the others write their
    acts. -/
theorem runRecords_eq (hres : clock.timeResolution ≠ 0)
    (hnamed : ∀ r ∈ rs, (names.stateName r.region).isSome = true) :
    let clock' := clock.after (keptRecords args names rs)
    ∃ outs, runRecords args names clock rs = some (clock', outs) ∧
      ∀ parent, outs.map Paje.line =
        (rs.filterMap (Record.act args names
          fun t => seconds clock.timeResolution (clock'.firstTime.getD 0) t)).map
            (cast parent).line := by
  induction rs generalizing clock with
  | nil =>
    refine ⟨[], ?_, fun _ => rfl⟩
    simp [runRecords, keptRecords, Clock.after]
  | cons r rs ih =>
    have hrest := fun r' hr' => hnamed r' (List.mem_cons_of_mem r hr')
    cases hkept : r.kept args names with
    | false =>
      obtain ⟨outs, hrun, hlines⟩ := ih hres hrest
      have hfilter : keptRecords args names (r :: rs) = keptRecords args names rs :=
        List.filter_cons_of_neg (by simp [hkept])
      have hact : ∀ time, r.act args names time = none := by
        intro time
        obtain ⟨text, htext⟩ := Option.isSome_iff_exists.mp (hnamed r List.mem_cons_self)
        rw [Record.kept, htext, Option.any_some] at hkept
        simp [Record.act, htext, hkept]
      refine ⟨outs, ?_, fun parent => ?_⟩
      · rw [runRecords_cons (Record.call_of_not_kept (hnamed r List.mem_cons_self) hkept _), hfilter,
          hrun]
        rfl
      · rw [hfilter, List.filterMap_cons_none (hact _)]
        exact hlines parent
    | true =>
      obtain ⟨outs, hcall, hline⟩ := Record.call_of_kept hres hkept
      obtain ⟨outs', hrun, hlines⟩ := @ih ⟨some (clock.firstTime.getD r.time),
        clock.timeResolution, some (seconds clock.timeResolution (clock.firstTime.getD r.time)
          r.time)⟩ hres hrest
      have hfilter : keptRecords args names (r :: rs) = r :: keptRecords args names rs :=
        List.filter_cons_of_pos hkept
      have hfirst : (clock.firstTime.or (some r.time)) = some (clock.firstTime.getD r.time) := by
        cases clock.firstTime <;> rfl
      refine ⟨outs ++ outs', ?_, fun parent => ?_⟩
      · rw [runRecords_cons hcall, hrun, hfilter]
        refine congrArg some (Prod.ext ?_ rfl)
        simp only [Clock.after, List.head?_cons, Option.map_some, hfirst, List.getLast?_cons]
        cases (keptRecords args names rs).getLast? <;> rfl
      · rw [hfilter, List.map_append, hline parent, hlines parent]
        simp only [Clock.after, List.head?_cons, Option.map_some, hfirst, Option.getD_some,
          Option.some_or, List.filterMap_cons]
        cases r.act args names _ <;> rfl

end Otf2
end Akypuera

import Akypuera.Lib.Perl
import Akypuera.Lib.Words
import Mathlib

/-!
# `otf2ompprint2paje.pl`

The script reads what `otf2-print` prints, twice: once for the names of the metrics, which go to the
header, and once for the events. Lines come without their newline here, and what is printed is a
sequence of `Output`s, each with the texts of its line; the buffer that they pass through is written
out in the end, and changes nothing.

Of what the script remembers, the job identifiers are kept by thread (`jobid`); **the values of
metrics are not**. They are collected in one list, and the next `ENTER` or `LEAVE` takes them all.
-/

set_option autoImplicit false

namespace Akypuera
namespace OmpPrint

open CText Perl Words

/-- A line that is written, with the texts in it. -/
inductive Output where
  | createContainer (time : ℚ) (thread : Str)
  | pushState (time : ℚ) (container value jobId : Str) (metrics : List Str)
  | popState (time : ℚ) (container : Str) (metrics : List Str)
  deriving DecidableEq

/-- What the script remembers: `$first_timestamp`, `@metrics`, `%jobid` and
    `%created_containers`. -/
structure State where
  firstTimestamp : Option Str
  metrics : List Str
  jobid : Str → Option Str
  created : List Str

def State.init : State where
  firstTimestamp := none
  metrics := []
  jobid := fun _ => none
  created := []

/-- `create`. -/
def create (st : State) (thread : Str) (strevent : Output) : State × List Output :=
  if thread ∈ st.created then (st, [])
  else ({ st with created := st.created ++ [thread] }, [strevent])

/-! ## What is taken out of a line -/

def sEnter : Str := "ENTER".toList
def sLeave : Str := "LEAVE".toList
def sMetric : Str := "METRIC".toList
def sThreadTeamBegin : Str := "THREAD_TEAM_BEGIN".toList
def sThreadTaskSwitch : Str := "THREAD_TASK_SWITCH".toList
def sZero : Str := "zero".toList

/-- The line with the colons of numbers, what is quoted and runs of blanks taken care of, and its
    pieces between colons. -/
def pieces (line : Str) : List Str :=
  let line := mapBeforeDigit ':' '_' line
  let line := tr '"' '#' line
  let line := cutBetween ['#'] ['#'] line
  let line := squeeze ' ' ':' line
  fields ':' line

/-- The same for the begin of a team, whose colons stay. -/
def teamPieces (line : Str) : List Str := fields ':' (squeeze ' ' ':' line)

/-- `if ($thread == "0") {$thread = "zero";}`. -/
def renamed (thread : Str) : Str := if isZero thread then sZero else thread

/-- `$event` of a line. -/
def eventOf (line : Str) : Str := (pieces line).getD 0 []

/-- `$thread` of a line, with its new name. -/
def threadOf (line : Str) : Str := renamed ((pieces line).getD 1 [])

/-- `$time` of a line. -/
def timeOf (line : Str) : Option Str := (pieces line)[2]?

/-- `$thread` and `$time` at the begin of a team. -/
def teamThreadOf (line : Str) : Str := (teamPieces line).getD 1 []

def teamTimeOf (line : Str) : Option Str := (teamPieces line)[2]?

/-- What is between the first and the last quote. -/
def region (line : Str) : Str := cutFromLast '"' (cutThroughFirst '"' line)

/-- The counters of a line of metrics, each with its name and type. -/
def counters (line : Str) : List Str :=
  let line := cutThrough "Values: ".toList line
  let line := squeeze ' ' ' ' line
  let line := joinCommas line
  split ',' line

/-- The value of a counter. -/
def counterValue (counter : Str) : Str :=
  (cutBetween "(\"".toList "UINT64; ".toList counter).erase ')'

/-- `s/\("(.*)\".*$/\1/`: the name of a counter. -/
def counterName (counter : Str) : Str :=
  match cutAt "(\"".toList counter with
  | none => counter
  | some (before, behind) =>
      if '"' ∈ behind then before ++ cutFromLast '"' behind else counter

/-- `$jid =~ s/^.*Generation Number: //`. -/
def generation (line : Str) : Str := cutThrough "Generation Number: ".toList line

/-- An undefined value counts as 0. -/
def number (time : Option Str) : ℚ := (time.map numify).getD 0

/-- `$time -= $first_timestamp; $time /= $resolution`. -/
def elapsed (time first : Option Str) : ℚ := (number time - number first) / 1000000

/-! ## The loop -/

def isEvent (line : Str) : Bool := beginsWith sEnter line || beginsWith sLeave line

def isMetric (line : Str) : Bool := beginsWith sMetric line

def isTeamBegin (line : Str) : Bool := beginsWith sThreadTeamBegin line

def isTaskSwitch (line : Str) : Bool := beginsWith sThreadTaskSwitch line

/-- A job identifier that is set and not empty: `$jobid{$thread} =~ /^$/` fails. -/
def usable (job : Option Str) : Option Str := job.filter (· ≠ [])

/-- `ENTER` and `LEAVE`. -/
def State.event (st : State) (line : Str) : State × List Output :=
  let first := st.firstTimestamp.or (timeOf line)
  let st := { st with firstTimestamp := first }
  let time := elapsed (timeOf line) first
  let (st, outs) :=
    if beginsWith sEnter (eventOf line) then
      match usable (st.jobid (threadOf line)) with
      | none => (st, [Output.pushState time (threadOf line) (region line) "-1".toList st.metrics])
      | some job =>
          ({ st with jobid := Function.update st.jobid (threadOf line) (some "-1".toList) },
            [Output.pushState time (threadOf line) (region line) job st.metrics])
    else if beginsWith sLeave (eventOf line) then
      (st, [Output.popState time (threadOf line) st.metrics])
    else (st, [])
  ({ st with metrics := [] }, outs)

/-- `METRIC`. -/
def State.metric (st : State) (line : Str) : State :=
  { st with metrics := st.metrics ++ (counters line).map counterValue }

/-- `THREAD_TEAM_BEGIN`. -/
def State.teamBegin (st : State) (line : Str) : State × List Output :=
  let first := st.firstTimestamp.or (teamTimeOf line)
  let st := { st with firstTimestamp := first }
  let thread := teamThreadOf line
  if isZero thread then (st, [])
  else create st thread (.createContainer (elapsed (teamTimeOf line) first) thread)

/-- `THREAD_TASK_SWITCH`. -/
def State.taskSwitch (st : State) (line : Str) : State :=
  { st with jobid := Function.update st.jobid (threadOf line) (some (generation line)) }

/-- One round of the loop. -/
def step (st : State) (line : Str) : State × List Output :=
  if isEvent line then st.event line
  else if isMetric line then (st.metric line, [])
  else if isTeamBegin line then st.teamBegin line
  else if isTaskSwitch line then (st.taskSwitch line, [])
  else (st, [])

/-- The loop: what is written from a state on. -/
def run (st : State) : List Str → List Output
  | [] => []
  | line :: lines => (step st line).2 ++ run (step st line).1 lines

/-- What is remembered after some lines. -/
def after (st : State) (lines : List Str) : State := lines.foldl (fun st line => (step st line).1) st

/-- The state in which the loop is entered: thread zero is created in the beginning. -/
def start : State × List Output := create State.init sZero (.createContainer 0 sZero)

/-- What the script writes after the header. -/
def output (lines : List Str) : List Output := start.2 ++ run start.1 lines

/-! ## The header -/

/-- `get_metrics_description`: the names of the counters in the first line of metrics, which is
    looked for in 1000 lines. -/
def metricsDescription : Nat → List Str → List Str
  | _, [] => []
  | linecount, line :: lines =>
      if isMetric line then (counters line).map counterName
      else if linecount + 1 = 1000 then []
      else metricsDescription (linecount + 1) lines

/-- The fields that the header declares for a line, given the names of the metrics. -/
def Output.declared (metricsdesc : List Str) : Output → List Str
  | createContainer .. =>
      ["Time".toList, "Alias".toList, "Type".toList, "Container".toList, "Name".toList]
  | pushState .. =>
      ["Time".toList, "Container".toList, "Type".toList, "Value".toList, "JobId".toList] ++ metricsdesc
  | popState .. => ["Time".toList, "Container".toList, "Type".toList] ++ metricsdesc

/-- A value as it is printed. -/
def quoted (value : Str) : Str := '"' :: (value ++ ['"'])

/-- The fields of a line as it is printed: the time, and what stands between blanks behind it, where
    the value in its quotes is one field. -/
def Output.fields : Output → List (ℚ ⊕ Str)
  | createContainer time thread =>
      .inl time :: (atBlanks (joined [thread, ['T'], ['0'], thread])).map .inr
  | pushState time container value jobId metrics =>
      .inl time :: (atBlanks (joined [container, ['S']]) ++ quoted value ::
        atBlanks (joined (jobId :: metrics))).map .inr
  | popState time container metrics =>
      .inl time :: (atBlanks (joined (container :: ['S'] :: metrics))).map .inr

/-! ## One line -/

theorem run_append (st : State) (lines lines' : List Str) :
    run st (lines ++ lines') = run st lines ++ run (after st lines) lines' := by
  induction lines generalizing st with
  | nil => rfl
  | cons line lines ih => rw [List.cons_append, run, run, ih, List.append_assoc]; rfl

/-- The first piece of an event begins as its line does. -/
theorem beginsWith_event {text line : Str} (hne : text ≠ [])
    (htext : ∀ c ∈ [':', '"', '#', ' '], c ∉ text) (h : beginsWith text line = true) :
    beginsWith text (eventOf line) = true := by
  obtain ⟨rest, rfl⟩ := beginsWith_iff.mp h
  rw [eventOf, pieces, mapBeforeDigit_append (htext ':' (by simp)), tr_append (htext '"' (by simp)),
    cutBetween_append (htext '#' (by simp)), squeeze_append (htext ' ' (by simp))]
  obtain ⟨rest', ws, hws⟩ := exists_fields_append (htext ':' (by simp)) hne
    (squeeze ' ' ':' (cutBetween ['#'] ['#'] (tr '"' '#' (mapBeforeDigit ':' '_' rest))))
  rw [hws]
  exact beginsWith_iff.mpr ⟨rest', rfl⟩

/-- What an event writes, given the first time stamp, the job of its thread and the metrics that were
    collected. -/
def eventOutput (first job : Option Str) (metrics : List Str) (line : Str) : Output :=
  if beginsWith sEnter line then
    .pushState (elapsed (timeOf line) first) (threadOf line) (region line)
      ((usable job).getD "-1".toList) metrics
  else .popState (elapsed (timeOf line) first) (threadOf line) metrics

/-- The job that an event leaves: one that was used is not used again. -/
def jobUsed (line : Str) (job : Option Str) : Option Str :=
  if beginsWith sEnter line ∧ (usable job).isSome then some "-1".toList else job

theorem event_enter {line : Str} (h : beginsWith sEnter line = true) :
    beginsWith sEnter (eventOf line) = true :=
  beginsWith_event (by decide) (by simp [sEnter]) h

theorem event_leave {line : Str} (h : beginsWith sLeave line = true) :
    beginsWith sEnter (eventOf line) = false ∧ beginsWith sLeave (eventOf line) = true := by
  have hleave : beginsWith sLeave (eventOf line) = true :=
    beginsWith_event (by decide) (by simp [sLeave]) h
  exact ⟨beginsWith_eq_false hleave (by decide), hleave⟩

/-- **What an event does**: it writes one line and takes the metrics, whoever they are from; of the
    jobs it changes that of its thread. -/
theorem event_eq {line : Str} (h : isEvent line = true) (st : State) :
    st.event line =
      ({ firstTimestamp := st.firstTimestamp.or (timeOf line), metrics := [],
         jobid := Function.update st.jobid (threadOf line)
           (jobUsed line (st.jobid (threadOf line))),
         created := st.created },
        [eventOutput (st.firstTimestamp.or (timeOf line)) (st.jobid (threadOf line)) st.metrics
          line]) := by
  rw [isEvent, Bool.or_eq_true] at h
  by_cases henter : beginsWith sEnter line = true
  · have hevent := event_enter henter
    cases hjob : usable (st.jobid (threadOf line)) with
    | none => simp [State.event, hevent, hjob, eventOutput, henter, jobUsed]
    | some job => simp [State.event, hevent, hjob, eventOutput, henter, jobUsed]
  · obtain ⟨henter', hleave⟩ := event_leave (h.resolve_left henter)
    simp [State.event, henter', hleave, eventOutput, henter, jobUsed]

/-- The begin of a team is nothing else. -/
theorem isTeamBegin_eq_false {line : Str} (h : isEvent line = true ∨ isMetric line = true) :
    isTeamBegin line = false := by
  rcases h with h | h
  · rw [isEvent, Bool.or_eq_true] at h
    rcases h with h | h
    · exact beginsWith_eq_false h (by decide)
    · exact beginsWith_eq_false h (by decide)
  · exact beginsWith_eq_false h (by decide)

/-- What a round of the loop can be. -/
theorem step_cases (st : State) (line : Str) :
    (isEvent line = true ∧ step st line = st.event line) ∨
    (isEvent line = false ∧ isMetric line = true ∧ step st line = (st.metric line, [])) ∨
    (isEvent line = false ∧ isMetric line = false ∧ isTeamBegin line = true ∧
      step st line = st.teamBegin line) ∨
    (isEvent line = false ∧ isMetric line = false ∧ isTeamBegin line = false ∧
      isTaskSwitch line = true ∧ step st line = (st.taskSwitch line, [])) ∨
    (isEvent line = false ∧ isMetric line = false ∧ isTeamBegin line = false ∧
      isTaskSwitch line = false ∧ step st line = (st, [])) := by
  cases hevent : isEvent line with
  | true => simp [step, hevent]
  | false =>
    cases hmetric : isMetric line with
    | true => simp [step, hevent, hmetric]
    | false =>
      cases hteam : isTeamBegin line with
      | true => simp [step, hevent, hmetric, hteam]
      | false =>
        cases hswitch : isTaskSwitch line with
        | true => simp [step, hevent, hmetric, hteam, hswitch]
        | false => simp [step, hevent, hmetric, hteam, hswitch]

/-! ## What each part of the state goes through -/

/-- The metrics: an event takes them. -/
def pending (metrics : List Str) (line : Str) : List Str :=
  if isEvent line then []
  else if isMetric line then metrics ++ (counters line).map counterValue
  else metrics

/-- The time stamp of a line that may be the first to have one. -/
def stampOf (line : Str) : Option Str :=
  if isEvent line then timeOf line
  else if isTeamBegin line then teamTimeOf line
  else none

/-- The thread that the begin of a team creates a container for. -/
def teamOf (line : Str) : Option Str :=
  if isTeamBegin line && !isZero (teamThreadOf line) then some (teamThreadOf line) else none

/-- The job of a thread, where the line is one of that thread. -/
def jobAfter (job : Option Str) (line : Str) : Option Str :=
  if isEvent line then jobUsed line job
  else if isMetric line || isTeamBegin line then job
  else if isTaskSwitch line then some (generation line)
  else job

/-- `create` leaves the rest of the state alone. -/
theorem create_eq (st : State) (thread : Str) (strevent : Output) :
    create st thread strevent =
      ({ st with created := if thread ∈ st.created then st.created else st.created ++ [thread] },
        if thread ∈ st.created then [] else [strevent]) := by
  unfold create
  split
  · rfl
  · rfl

theorem teamBegin_eq {line : Str} (h : isTeamBegin line = true) (st : State) :
    st.teamBegin line =
      ({ st with
          firstTimestamp := st.firstTimestamp.or (teamTimeOf line)
          created := (teamOf line).elim st.created fun thread =>
            if thread ∈ st.created then st.created else st.created ++ [thread] },
        (teamOf line).elim [] fun thread =>
          if thread ∈ st.created then []
          else [.createContainer (elapsed (teamTimeOf line) (st.firstTimestamp.or (teamTimeOf line)))
            thread]) := by
  rw [teamOf, h]
  cases hzero : isZero (teamThreadOf line) with
  | true => simp [State.teamBegin, hzero]
  | false => simp [State.teamBegin, hzero, create_eq]

theorem step_metrics (st : State) (line : Str) :
    (step st line).1.metrics = pending st.metrics line := by
  rcases step_cases st line with ⟨h, hstep⟩ | ⟨h, h', hstep⟩ | ⟨h, h', hteam, hstep⟩ |
    ⟨h, h', -, -, hstep⟩ | ⟨h, h', -, -, hstep⟩
  · rw [hstep, event_eq h, pending, if_pos h]
  · rw [hstep, pending, h, h']; rfl
  · rw [hstep, teamBegin_eq hteam, pending, h, h']; rfl
  · rw [hstep, pending, h, h']; rfl
  · rw [hstep, pending, h, h']; rfl

theorem step_firstTimestamp (st : State) (line : Str) :
    (step st line).1.firstTimestamp = st.firstTimestamp.or (stampOf line) := by
  rcases step_cases st line with ⟨h, hstep⟩ | ⟨h, h', hstep⟩ | ⟨h, -, hteam, hstep⟩ |
    ⟨h, -, hteam, -, hstep⟩ | ⟨h, -, hteam, -, hstep⟩
  · rw [hstep, event_eq h, stampOf, if_pos h]
  · have hteam := isTeamBegin_eq_false (.inr h')
    rw [hstep, stampOf, h, hteam]
    exact (Option.or_none).symm
  · rw [hstep, teamBegin_eq hteam, stampOf, h, hteam]; rfl
  · rw [hstep, stampOf, h, hteam]
    exact (Option.or_none).symm
  · rw [hstep, stampOf, h, hteam]
    exact (Option.or_none).symm

/-- **The job of a thread changes in its own lines only.** -/
theorem step_jobid (st : State) (line : Str) (thread : Str) :
    (step st line).1.jobid thread =
      if thread = threadOf line then jobAfter (st.jobid thread) line else st.jobid thread := by
  rcases step_cases st line with ⟨h, hstep⟩ | ⟨h, h', hstep⟩ | ⟨h, h', hteam, hstep⟩ |
    ⟨h, h', hteam, hswitch, hstep⟩ | ⟨h, h', hteam, hswitch, hstep⟩
  · rw [hstep, event_eq h]
    by_cases ht : thread = threadOf line
    · subst ht
      simp [jobAfter, h]
    · simp [ht]
  · rw [hstep]
    simp [jobAfter, h, h', State.metric]
  · rw [hstep, teamBegin_eq hteam]
    simp [jobAfter, h, hteam]
  · rw [hstep]
    by_cases ht : thread = threadOf line
    · subst ht
      simp [jobAfter, h, h', hteam, hswitch, State.taskSwitch]
    · simp [ht, State.taskSwitch]
  · rw [hstep]
    simp [jobAfter, h, h', hteam, hswitch]

theorem step_created (st : State) (line : Str) :
    (step st line).1.created = (teamOf line).elim st.created fun thread =>
      if thread ∈ st.created then st.created else st.created ++ [thread] := by
  rcases step_cases st line with ⟨h, hstep⟩ | ⟨h, h', hstep⟩ | ⟨h, h', hteam, hstep⟩ |
    ⟨h, h', hteam, -, hstep⟩ | ⟨h, h', hteam, -, hstep⟩
  · have hteam := isTeamBegin_eq_false (.inl h)
    rw [hstep, event_eq h, teamOf, hteam]; rfl
  · have hteam := isTeamBegin_eq_false (.inr h')
    rw [hstep, teamOf, hteam]; rfl
  · rw [hstep, teamBegin_eq hteam]
  · rw [hstep, teamOf, hteam]; rfl
  · rw [hstep, teamOf, hteam]; rfl

/-- What a line writes. -/
theorem step_outputs (st : State) (line : Str) :
    (step st line).2 =
      if isEvent line then
        [eventOutput (st.firstTimestamp.or (timeOf line)) (st.jobid (threadOf line)) st.metrics line]
      else (teamOf line).elim [] fun thread =>
        if thread ∈ st.created then []
        else [.createContainer (elapsed (teamTimeOf line) (st.firstTimestamp.or (teamTimeOf line)))
          thread] := by
  rcases step_cases st line with ⟨h, hstep⟩ | ⟨h, h', hstep⟩ | ⟨h, h', hteam, hstep⟩ |
    ⟨h, h', hteam, -, hstep⟩ | ⟨h, h', hteam, -, hstep⟩
  · rw [hstep, event_eq h, if_pos h]
  · rw [hstep, h, teamOf, isTeamBegin_eq_false (.inr h')]; rfl
  · rw [hstep, teamBegin_eq hteam, h]; rfl
  · rw [hstep, h, teamOf, hteam]; rfl
  · rw [hstep, h, teamOf, hteam]; rfl

/-! ## Whole runs -/

/-- What is written is written for some line. -/
theorem mem_run_iff {st : State} {lines : List Str} {o : Output} :
    o ∈ run st lines ↔ ∃ before line rest, lines = before ++ line :: rest ∧
      o ∈ (step (after st before) line).2 := by
  constructor
  · intro h
    induction lines generalizing st with
    | nil => exact absurd h List.not_mem_nil
    | cons line lines ih =>
      rcases List.mem_append.mp h with h | h
      · exact ⟨[], line, lines, rfl, h⟩
      · obtain ⟨before, line', rest, rfl, h'⟩ := ih h
        exact ⟨line :: before, line', rest, rfl, h'⟩
  · rintro ⟨before, line, rest, rfl, h⟩
    rw [run_append]
    exact List.mem_append_right _ (List.mem_append_left _ h)

theorem after_metrics (st : State) (lines : List Str) :
    (after st lines).metrics = lines.foldl pending st.metrics := by
  induction lines generalizing st with
  | nil => rfl
  | cons line lines ih => rw [List.foldl_cons, ← step_metrics, ← ih]; rfl

/-- The lines since the last event. -/
def sinceEvent (lines : List Str) : List Str := lines.rtakeWhile fun line => !isEvent line

/-- The values that are listed in the lines since the last event. -/
def collected (lines : List Str) : List Str :=
  ((sinceEvent lines).filter isMetric).flatMap fun line => (counters line).map counterValue

theorem sinceEvent_snoc (lines : List Str) (line : Str) :
    sinceEvent (lines ++ [line]) = if isEvent line then [] else sinceEvent lines ++ [line] := by
  rw [sinceEvent, List.rtakeWhile_concat]
  cases isEvent line with
  | true => rfl
  | false => rfl

/-- These are the metrics that the next event takes. -/
theorem foldl_pending (lines : List Str) : lines.foldl pending [] = collected lines := by
  induction lines using List.reverseRecOn with
  | nil => rfl
  | append_singleton lines line ih =>
    rw [List.foldl_append, List.foldl_cons, List.foldl_nil, ih, pending]
    unfold collected
    rw [sinceEvent_snoc]
    cases hevent : isEvent line with
    | true => rfl
    | false =>
      cases hmetric : isMetric line with
      | true => simp [hmetric]
      | false => simp [hmetric]

end OmpPrint
end Akypuera

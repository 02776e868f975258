import Akypuera.OmpPrint.Containers
import Akypuera.Lib.Firsts

/-!
# One thread among others

What is written for a thread should be what its own lines say. Beside the time stamps, which are
relative to the first one of the input, an event is made of its line, of the job of its thread and of
the metrics. The first two are the thread's own. **The metrics are anybody's**: so the threads do not
disturb each other exactly if at every event the values that were listed since the last event, of any
thread, are those that the thread itself listed since its own (`undisturbed_iff`).
-/

set_option autoImplicit false

namespace Akypuera
namespace OmpPrint

open CText Perl Firsts

/-- The lines of a thread. -/
def threadLines (thread : Str) (lines : List Str) : List Str :=
  lines.filter fun line => threadOf line = thread

/-- The pushes and pops for a thread. -/
def usesOf (thread : Str) (outs : List Output) : List Output :=
  outs.filter fun o => o.uses = some thread

/-- The first time stamp of an input. -/
def firstStamp (lines : List Str) : Option Str := lines.findSome? stampOf

/-- What is written for lines if the first time stamp is given. -/
def outputFrom (first : Option Str) (lines : List Str) : List Output :=
  start.2 ++ run { start.1 with firstTimestamp := first } lines

/-- For every thread the pushes and pops are those for its lines alone. -/
def Undisturbed (lines : List Str) : Prop :=
  ∀ thread, usesOf thread (output lines) =
    usesOf thread (outputFrom (firstStamp lines) (threadLines thread lines))

/-! ## One line -/

/-- Lines that are not events write nothing for a thread. -/
theorem usesOf_step_of_not_event {line : Str} (h : isEvent line = false) (st : State)
    (thread : Str) : usesOf thread (step st line).2 = [] := by
  rw [step_outputs, h, if_neg (by simp)]
  cases teamOf line with
  | none => rfl
  | some thread' =>
    rw [Option.elim_some]
    split
    · rfl
    · rfl

theorem usesOf_step_of_event {line : Str} (h : isEvent line = true) (st : State) :
    usesOf (threadOf line) (step st line).2 =
      [eventOutput (st.firstTimestamp.or (timeOf line)) (st.jobid (threadOf line)) st.metrics
        line] := by
  rw [step_outputs, if_pos h]
  simp [usesOf, uses_eventOutput]

/-- The lines of other threads write nothing for a thread. -/
theorem usesOf_step_of_ne {line thread : Str} (h : threadOf line ≠ thread) (st : State) :
    usesOf thread (step st line).2 = [] := by
  cases hevent : isEvent line with
  | false => exact usesOf_step_of_not_event hevent st thread
  | true =>
    rw [step_outputs, if_pos hevent]
    simp [usesOf, uses_eventOutput, h]

/-- An event shows its metrics. -/
theorem eventOutput_inj {first job : Option Str} {metrics metrics' : List Str} {line : Str} :
    eventOutput first job metrics line = eventOutput first job metrics' line ↔
      metrics = metrics' := by
  unfold eventOutput
  split
  · simp
  · simp

theorem usesOf_run_cons (thread : Str) (st : State) (line : Str) (lines : List Str) :
    usesOf thread (run st (line :: lines)) =
      usesOf thread (step st line).2 ++ usesOf thread (run (step st line).1 lines) :=
  List.filter_append ..

/-! ## Two runs -/

/-- A run over all lines, and one over those of a thread. They agree on the first time stamp, which
    the second one knows beforehand, and on the job of the thread. -/
structure SideBySide (thread : Str) (lines : List Str) (st st' : State) : Prop where
  first : st.firstTimestamp.or (firstStamp lines) = st'.firstTimestamp
  job : st.jobid thread = st'.jobid thread

variable {thread line : Str} {lines : List Str} {st st' : State}

theorem firstStamp_cons (line : Str) (lines : List Str) :
    firstStamp (line :: lines) = (stampOf line).or (firstStamp lines) := by
  rw [firstStamp, List.findSome?_cons]
  cases stampOf line with
  | none => rfl
  | some stamp => rfl

theorem SideBySide.first_step (h : SideBySide thread (line :: lines) st st') :
    (step st line).1.firstTimestamp.or (firstStamp lines) = st'.firstTimestamp := by
  rw [step_firstTimestamp, Option.or_assoc, ← firstStamp_cons, h.first]

/-- What is known beforehand is not changed by a line. -/
theorem SideBySide.first_eq (h : SideBySide thread (line :: lines) st st') :
    st'.firstTimestamp.or (stampOf line) = st'.firstTimestamp := by
  rw [← h.first, firstStamp_cons]
  cases st.firstTimestamp with
  | some first => rfl
  | none =>
    cases stampOf line with
    | some stamp => rfl
    | none => exact Option.or_none

/-- A line of another thread, which the second run does not see. -/
theorem SideBySide.skip (h : SideBySide thread (line :: lines) st st')
    (hne : threadOf line ≠ thread) : SideBySide thread lines (step st line).1 st' where
  first := h.first_step
  job := by rw [step_jobid, if_neg (Ne.symm hne), h.job]

/-- A line of the thread. -/
theorem SideBySide.both (h : SideBySide (threadOf line) (line :: lines) st st') :
    SideBySide (threadOf line) lines (step st line).1 (step st' line).1 where
  first := by rw [h.first_step, step_firstTimestamp, h.first_eq]
  job := by rw [step_jobid, if_pos rfl, step_jobid, if_pos rfl, h.job]

/-- An event of the thread that has a time stamp: the two runs write the same if they have the same
    metrics. -/
theorem SideBySide.event_iff (h : SideBySide (threadOf line) (line :: lines) st st')
    (hevent : isEvent line = true) (htime : (timeOf line).isSome) :
    usesOf (threadOf line) (step st line).2 = usesOf (threadOf line) (step st' line).2 ↔
      st.metrics = st'.metrics := by
  have hstamp : stampOf line = timeOf line := if_pos hevent
  have hfirst : st.firstTimestamp.or (timeOf line) = st'.firstTimestamp.or (timeOf line) := by
    rw [← hstamp, h.first_eq, ← h.first, firstStamp_cons, ← Option.or_assoc, hstamp]
    obtain ⟨time, htime⟩ := Option.isSome_iff_exists.mp htime
    rw [htime]
    cases st.firstTimestamp with
    | none => rfl
    | some first => rfl
  rw [usesOf_step_of_event hevent, usesOf_step_of_event hevent, hfirst, h.job, List.cons.injEq,
    and_iff_left rfl, eventOutput_inj]

/-- **Two runs side by side** write the same for the thread exactly if at each of its events they
    have the same metrics. -/
theorem SideBySide.uses_iff (h : SideBySide thread lines st st')
    (htimes : ∀ line ∈ lines, isEvent line = true → (timeOf line).isSome) :
    usesOf thread (run st lines) = usesOf thread (run st' (threadLines thread lines)) ↔
      ∀ before line rest, lines = before ++ line :: rest → isEvent line = true →
        threadOf line = thread →
        before.foldl pending st.metrics =
          (threadLines thread before).foldl pending st'.metrics := by
  induction lines generalizing st st' with
  | nil =>
    refine iff_of_true rfl ?_
    intro before line rest heq
    exact absurd heq (by simp)
  | cons line lines ih =>
    have htimes' : ∀ l ∈ lines, isEvent l = true → (timeOf l).isSome := by
      intro l hl
      exact htimes l (List.mem_cons_of_mem _ hl)
    rw [forall_split_cons_iff, usesOf_run_cons]
    by_cases hthread : threadOf line = thread
    · subst hthread
      have hcons : ∀ ls, threadLines (threadOf line) (line :: ls) =
          line :: threadLines (threadOf line) ls := by
        intro ls
        exact List.filter_cons_of_pos (by simp)
      rw [hcons, usesOf_run_cons]
      simp only [hcons, List.foldl_cons, List.foldl_nil, ← step_metrics]
      rw [← ih h.both htimes']
      cases hevent : isEvent line with
      | true =>
        have hhead := h.event_iff hevent (htimes line List.mem_cons_self hevent)
        rw [usesOf_step_of_event hevent, usesOf_step_of_event hevent] at hhead ⊢
        rw [List.cons.injEq, and_iff_left rfl] at hhead
        rw [List.singleton_append, List.singleton_append, List.cons.injEq, hhead]
        simp [threadLines]
      | false =>
        rw [usesOf_step_of_not_event hevent, usesOf_step_of_not_event hevent]
        simp
    · have hskip : ∀ ls, threadLines thread (line :: ls) = threadLines thread ls := by
        intro ls
        exact List.filter_cons_of_neg (by simpa using hthread)
      rw [hskip, usesOf_step_of_ne hthread, List.nil_append, ih (h.skip hthread) htimes']
      simp only [hskip, List.foldl_cons, ← step_metrics]
      simp [hthread]

/-- **Threads do not disturb each other** exactly if at every event the values that were listed
    since the last one are those that its thread listed since its own last one. -/
theorem undisturbed_iff {lines : List Str}
    (htimes : ∀ line ∈ lines, isEvent line = true → (timeOf line).isSome) :
    Undisturbed lines ↔
      ∀ before line rest, lines = before ++ line :: rest → isEvent line = true →
        collected before = collected (threadLines (threadOf line) before) := by
  have hthread : ∀ thread, usesOf thread (output lines) =
        usesOf thread (outputFrom (firstStamp lines) (threadLines thread lines)) ↔
      ∀ before line rest, lines = before ++ line :: rest → isEvent line = true →
        threadOf line = thread →
        collected before = collected (threadLines thread before) := by
    intro thread
    have hpair : SideBySide thread lines start.1
        { start.1 with firstTimestamp := firstStamp lines } := ⟨rfl, rfl⟩
    simp only [← foldl_pending]
    exact hpair.uses_iff htimes
  constructor
  · intro h before line rest hsplit hevent
    exact (hthread _).mp (h _) before line rest hsplit hevent rfl
  · intro h thread
    refine (hthread thread).mpr ?_
    rintro before line rest hsplit hevent rfl
    exact h before line rest hsplit hevent

/-- A line of metrics, and an event of the same thread. -/
def inTurn : List Str :=
  ["METRIC 1 5 Values: (\"C\" <0>; UINT64; 7)".toList, "ENTER 1 5 Region: \"f\" <1>".toList]

theorem undisturbed_iff_inTurn : Undisturbed inTurn := by
  apply (undisturbed_iff (by decide +kernel)).mpr
  have hall : ∀ i : Fin inTurn.length, isEvent (inTurn.get i) = true →
      collected (inTurn.take i) =
        collected (threadLines (threadOf (inTurn.get i)) (inTurn.take i)) := by decide +kernel
  exact (@Firsts.forall_split_iff _ (fun before line => isEvent line = true →
    collected before = collected (threadLines (threadOf line) before)) inTurn).mpr hall

/-- The metrics of thread 1, and an event of thread 0 at the same time. -/
def mixedLines : List Str :=
  ["METRIC 1 5 Values: (\"PAPI_TOT_INS\" <0>; UINT64; 7)".toList,
   "ENTER 0 5 Region: \"main\" <1>".toList]

theorem mixedLines_disturbed :
    (∀ line ∈ mixedLines, isEvent line = true → (timeOf line).isSome) ∧
      ¬ Undisturbed mixedLines := by
  refine ⟨by decide +kernel, ?_⟩
  intro h
  exact absurd (h sZero) (by decide +kernel)

end OmpPrint
end Akypuera

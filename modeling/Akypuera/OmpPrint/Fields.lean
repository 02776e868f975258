import Akypuera.OmpPrint.Script

/-!
# The fields of a line, and the header

The header declares a field for every counter in the first line of metrics, where there is one among
the first 1000 lines. What an event has there is what was listed since the event before, **of
whatever thread, in however many lines**, and as it was listed: of a counter that is no `UINT64` more
than its value is printed, and of a job more than its number where the line has no generation number.
So lines and header agree on a whole input exactly if, at every event, the words that are printed for
the job and the counters are as many as declared (`fields_match_iff`). A line of metrics that comes
late, a second one before the same event, an event with none, and a value of several words are what
goes wrong.
-/

set_option autoImplicit false

namespace Akypuera
namespace OmpPrint

open CText Perl Words

/-- How many metrics the header declares. -/
def declaredCount (lines : List Str) : Nat :=
  ((lines.take 1000).find? isMetric).elim 0 fun line => (counters line).length

/-- How many words are printed for a line of metrics. -/
def metricWords (line : Str) : Nat :=
  ((counters line).map fun counter => (atBlanks (counterValue counter)).length).sum

/-- How many words are printed for the counters in the lines since the last event. -/
def listedWords (lines : List Str) : Nat := (((sinceEvent lines).filter isMetric).map metricWords).sum

/-- The job of a thread behind some lines. -/
def jobOf (thread : Str) (lines : List Str) : Option Str :=
  lines.foldl (fun job line => if thread = threadOf line then jobAfter job line else job) none

/-- What is printed as the job of an `ENTER`. -/
def shownJob (thread : Str) (lines : List Str) : Str :=
  (usable (jobOf thread lines)).getD "-1".toList

/-- What is printed for an event behind `before` is what is declared, word for word: for an `ENTER`
    one for the job, and one for each counter. -/
def WordsMatch (lines before : List Str) (line : Str) : Prop :=
  if beginsWith sEnter line then
    (atBlanks (shownJob (threadOf line) before)).length + listedWords before =
      1 + declaredCount lines
  else listedWords before = declaredCount lines

/-- A line has the fields that the header declares for it: with `n` metrics, `5 + n` for a push and
    `3 + n` for a pop. -/
def MatchesHeader (lines : List Str) (o : Output) : Prop :=
  o.fields.length = (o.declared (metricsDescription 0 lines)).length

instance (lines : List Str) (o : Output) : Decidable (MatchesHeader lines o) := Nat.decEq _ _

/-! ## The header -/

theorem length_metricsDescription {lines : List Str} {n k : Nat} (hk : n + k = 1000) (hpos : 0 < k) :
    (metricsDescription n lines).length =
      ((lines.take k).find? isMetric).elim 0 fun line => (counters line).length := by
  induction lines generalizing n k with
  | nil => rw [List.take_nil]; rfl
  | cons line lines ih =>
    obtain ⟨k, rfl⟩ : ∃ m, k = m + 1 := ⟨k - 1, by omega⟩
    rw [metricsDescription, List.take_succ_cons]
    cases hmetric : isMetric line with
    | true => simp [hmetric]
    | false =>
      rw [List.find?_cons_of_neg (by simp [hmetric]), if_neg (by simp)]
      by_cases hlast : n + 1 = 1000
      · -- the last line that is looked at
        have hzero : k = 0 := by omega
        rw [if_pos hlast, hzero]
        rfl
      · rw [if_neg hlast]
        exact ih (by omega) (by omega)

theorem length_metricsDescription_zero (lines : List Str) :
    (metricsDescription 0 lines).length = declaredCount lines :=
  length_metricsDescription rfl (by decide)

/-! ## What is printed -/

/-- A thread is one word: what blanks there were are gone, and what is empty is zero. -/
theorem atBlanks_renamed {s thread : Str} (h : thread ∈ fields ':' (squeeze ' ' ':' s) ∨ thread = []) :
    atBlanks (renamed thread) = [renamed thread] := by
  unfold renamed
  split
  · decide +kernel
  · next hzero =>
    have hne : thread ≠ [] := by
      rintro rfl
      exact hzero (by decide +kernel)
    refine atBlanks_of_not_mem hne fun hmem => ?_
    exact not_mem_squeeze (by decide) s (mem_of_mem_fields (h.resolve_right hne) hmem)

theorem getD_mem_or (ws : List Str) (n : Nat) : ws.getD n [] ∈ ws ∨ ws.getD n [] = [] := by
  rw [List.getD_eq_getElem?_getD]
  cases hn : ws[n]? with
  | none => exact Or.inr rfl
  | some w => exact Or.inl (List.mem_of_getElem? hn)

theorem atBlanks_threadOf (line : Str) : atBlanks (threadOf line) = [threadOf line] :=
  atBlanks_renamed (getD_mem_or (pieces line) 1)

/-- A team's container has the thread's name twice. -/
theorem atBlanks_teamOf {line thread : Str} (h : teamOf line = some thread) :
    atBlanks thread = [thread] := by
  unfold teamOf at h
  split at h
  · next hteam =>
    cases h
    have hzero : isZero (teamThreadOf line) = false := by simp_all
    have hname : renamed (teamThreadOf line) = teamThreadOf line := by rw [renamed, hzero]; rfl
    rw [← hname]
    exact atBlanks_renamed (getD_mem_or (teamPieces line) 1)
  · cases h

theorem length_flatMap_collected (lines : List Str) :
    ((collected lines).flatMap atBlanks).length = listedWords lines := by
  rw [collected, List.flatMap_assoc, List.length_flatMap, listedWords]
  congr 1
  apply List.map_congr_left
  intro line _
  rw [List.flatMap_map, List.length_flatMap]
  rfl

/-- The fields of an event are counted by the words of its job and its metrics. -/
theorem matchesHeader_eventOutput (lines : List Str) (first job : Option Str) (metrics : List Str)
    (line : Str) :
    MatchesHeader lines (eventOutput first job metrics line) ↔
      if beginsWith sEnter line then
        (atBlanks ((usable job).getD "-1".toList)).length + (metrics.flatMap atBlanks).length =
          1 + declaredCount lines
      else (metrics.flatMap atBlanks).length = declaredCount lines := by
  have hstate : atBlanks ['S'] = [['S']] := by decide +kernel
  rw [eventOutput, MatchesHeader, ← length_metricsDescription_zero]
  split
  · simp only [Output.fields, Output.declared, atBlanks_joined, List.flatMap_cons, List.flatMap_nil,
      atBlanks_threadOf, hstate, List.length_cons, List.length_map, List.length_append,
      List.length_nil]
    omega
  · simp only [Output.fields, Output.declared, atBlanks_joined, List.flatMap_cons,
      atBlanks_threadOf, hstate, List.length_cons, List.length_map, List.length_append,
      List.length_nil]
    omega

theorem matchesHeader_create (lines : List Str) (time : ℚ) {thread : Str}
    (h : atBlanks thread = [thread]) : MatchesHeader lines (.createContainer time thread) := by
  have htype : atBlanks ['T'] = [['T']] := by decide +kernel
  have hroot : atBlanks ['0'] = [['0']] := by decide +kernel
  simp [MatchesHeader, Output.fields, Output.declared, atBlanks_joined, h, htype, hroot]

theorem after_jobid (st : State) (thread : Str) (lines : List Str) :
    (after st lines).jobid thread = lines.foldl
      (fun job line => if thread = threadOf line then jobAfter job line else job)
      (st.jobid thread) := by
  induction lines generalizing st with
  | nil => rfl
  | cons line lines ih => rw [List.foldl_cons, ← step_jobid, ← ih]; rfl

/-- What is printed for an event behind some lines. -/
theorem matchesHeader_event (lines before : List Str) (line : Str) (first : Option Str) :
    MatchesHeader lines (eventOutput first ((after start.1 before).jobid (threadOf line))
      (after start.1 before).metrics line) ↔ WordsMatch lines before line := by
  have hmetrics : (after start.1 before).metrics = collected before := by
    rw [after_metrics]
    exact foldl_pending before
  have hjob : (after start.1 before).jobid (threadOf line) = jobOf (threadOf line) before :=
    after_jobid start.1 (threadOf line) before
  rw [matchesHeader_eventOutput, hmetrics, hjob, length_flatMap_collected]
  rfl

/-- Where the job and every value are one word, this is about the number of counters. -/
theorem wordsMatch_iff_of_words {lines before : List Str} {line : Str}
    (hjob : (atBlanks (shownJob (threadOf line) before)).length = 1)
    (hvalues : ∀ value ∈ collected before, (atBlanks value).length = 1) :
    WordsMatch lines before line ↔ (collected before).length = declaredCount lines := by
  have hwords : listedWords before = (collected before).length := by
    rw [← length_flatMap_collected, List.length_flatMap, List.map_congr_left hvalues]
    simp
  rw [WordsMatch, hjob, hwords]
  split
  · omega
  · rfl

/-- One line of metrics, and two events after it. -/
def unevenLines : List Str :=
  ["METRIC 0 5 Metric: 0, 1 Values: (\"PAPI_TOT_INS\" <0>; UINT64; 7)".toList,
   "ENTER 0 5 Region: \"main\" <1>".toList, "LEAVE 0 9 Region: \"main\" <1>".toList]

end OmpPrint
end Akypuera

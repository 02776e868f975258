import Akypuera.OmpPrint.Script

/-!
# Containers are created, or are not

A container is created at the begin of a team, and `zero` before the first line. It is created once.
An event does not look whether its container is there: it is, if the thread is number zero or **began
a team before** (`containers_created_iff`).
-/

set_option autoImplicit false

namespace Akypuera
namespace OmpPrint

open CText Perl

/-- The container that a line of the output creates. -/
def Output.creates : Output → Option Str
  | createContainer _ thread => some thread
  | _ => none

/-- The container that a push or a pop is for. -/
def Output.uses : Output → Option Str
  | createContainer .. => none
  | pushState _ container .. => some container
  | popState _ container _ => some container

/-- Every push and every pop comes behind the line that creates its container. -/
def CreatedBeforeUse (outs : List Output) : Prop :=
  ∀ before o rest, outs = before ++ o :: rest → ∀ container, o.uses = some container →
    container ∈ before.filterMap Output.creates

/-- No container is created twice. -/
def CreatedOnce (outs : List Output) : Prop := (outs.filterMap Output.creates).Nodup

/-- An event comes from number zero, or from a thread that began a team before. -/
def BeganTeam (before : List Str) (line : Str) : Prop :=
  threadOf line = sZero ∨ ∃ l ∈ before, isTeamBegin l = true ∧ teamThreadOf l = threadOf line

/-! ## What is created so far -/

theorem creates_eventOutput (first job : Option Str) (metrics : List Str) (line : Str) :
    (eventOutput first job metrics line).creates = none := by
  unfold eventOutput
  split
  · rfl
  · rfl

theorem uses_eventOutput (first job : Option Str) (metrics : List Str) (line : Str) :
    (eventOutput first job metrics line).uses = some (threadOf line) := by
  unfold eventOutput
  split
  · rfl
  · rfl

/-- An event is not the begin of a team. -/
theorem teamOf_eq_none {line : Str} (h : isEvent line = true) : teamOf line = none := by
  rw [teamOf, isTeamBegin_eq_false (.inl h)]
  rfl

theorem teamOf_eq_some_iff {line thread : Str} :
    teamOf line = some thread ↔
      isTeamBegin line = true ∧ isZero thread = false ∧ teamThreadOf line = thread := by
  rw [teamOf]
  constructor
  · intro h
    split at h
    · next hteam =>
      rw [Bool.and_eq_true, Bool.not_eq_true'] at hteam
      cases h
      exact ⟨hteam.1, hteam.2, rfl⟩
    · cases h
  · rintro ⟨hteam, hzero, rfl⟩
    simp [hteam, hzero]

/-- The script keeps the names of what it created. -/
theorem step_creates (st : State) (line : Str) :
    (step st line).1.created = st.created ++ (step st line).2.filterMap Output.creates := by
  rw [step_created, step_outputs]
  cases hevent : isEvent line with
  | true => simp [teamOf_eq_none hevent, creates_eventOutput]
  | false =>
    cases teamOf line with
    | none => simp
    | some thread =>
      by_cases h : thread ∈ st.created
      · simp [h]
      · simp [h, Output.creates]

theorem after_created (st : State) (lines : List Str) :
    (after st lines).created = st.created ++ (run st lines).filterMap Output.creates := by
  induction lines generalizing st with
  | nil => exact (List.append_nil _).symm
  | cons line lines ih =>
    change (after (step st line).1 lines).created = _
    rw [ih, step_creates, run, List.filterMap_append, List.append_assoc]

theorem nodup_step {st : State} (h : st.created.Nodup) (line : Str) :
    (step st line).1.created.Nodup := by
  rw [step_created]
  cases teamOf line with
  | none => exact h
  | some thread =>
    rw [Option.elim_some]
    split
    · exact h
    · next hnew =>
      refine List.nodup_append.mpr ⟨h, List.nodup_singleton _, ?_⟩
      intro a ha b hb heq
      rw [List.mem_singleton.mp hb] at heq
      exact hnew (heq ▸ ha)

theorem nodup_after {st : State} (h : st.created.Nodup) (lines : List Str) :
    (after st lines).created.Nodup := by
  induction lines generalizing st with
  | nil => exact h
  | cons line lines ih => exact ih (nodup_step h line)

theorem mem_step_created {st : State} {line thread : Str} :
    thread ∈ (step st line).1.created ↔ thread ∈ st.created ∨ teamOf line = some thread := by
  rw [step_created]
  cases teamOf line with
  | none => simp
  | some thread' =>
    by_cases h : thread' ∈ st.created
    · simp only [Option.elim_some, if_pos h, Option.some.injEq]
      exact ⟨.inl, fun h' => h'.elim id fun heq => heq ▸ h⟩
    · simp [h, eq_comm]

/-- A container is there if it was there, or a team began with it. -/
theorem mem_after_created {st : State} {lines : List Str} {thread : Str} :
    thread ∈ (after st lines).created ↔
      thread ∈ st.created ∨ ∃ l ∈ lines, teamOf l = some thread := by
  induction lines generalizing st with
  | nil => simp [after]
  | cons line lines ih =>
    change thread ∈ (after (step st line).1 lines).created ↔ _
    rw [ih, mem_step_created, List.exists_mem_cons_iff, or_assoc]

theorem start_created : start.1.created = [sZero] ∧ start.2.filterMap Output.creates = [sZero] :=
  ⟨rfl, rfl⟩

theorem creates_output (lines : List Str) :
    (output lines).filterMap Output.creates = (after start.1 lines).created := by
  rw [output, List.filterMap_append, after_created, start_created.1, start_created.2]

/-! ## Where an event stands -/

/-- A line that is written comes behind what was written for the lines before. -/
theorem exists_split_of_run {st : State} {lines : List Str} {before rest : List Output}
    {o : Output} (h : run st lines = before ++ o :: rest) :
    ∃ before' line rest' outs outs', lines = before' ++ line :: rest' ∧
      (step (after st before') line).2 = outs ++ o :: outs' ∧ before = run st before' ++ outs := by
  induction lines generalizing st before with
  | nil => exact absurd h (by simp [run])
  | cons line lines ih =>
    rw [run] at h
    rcases List.append_eq_append_iff.mp h with ⟨outs, hbefore, hrun⟩ | ⟨outs, hstep, hrest⟩
    · obtain ⟨before', line', rest', os, os', rfl, hos, rfl⟩ := ih hrun
      exact ⟨line :: before', line', rest', os, os', rfl, hos,
        by rw [hbefore, run, List.append_assoc]⟩
    · cases outs with
      | nil =>
        have hlines : run (step st line).1 lines = [] ++ o :: rest := hrest.symm
        obtain ⟨before', line', rest', os, os', rfl, hos, hnil⟩ := ih hlines
        refine ⟨line :: before', line', rest', os, os', rfl, hos, ?_⟩
        rw [run, List.append_assoc, ← hnil, hstep, List.append_nil, List.append_nil]
      | cons o' outs =>
        obtain ⟨rfl, -⟩ := List.cons.inj hrest
        exact ⟨[], line, lines, before, outs, rfl, hstep, rfl⟩

/-- The uses among the outputs of a line are those of an event, which writes nothing else. -/
theorem uses_step {st : State} {line container : Str} {outs outs' : List Output} {o : Output}
    (h : (step st line).2 = outs ++ o :: outs') (ho : o.uses = some container) :
    isEvent line = true ∧ threadOf line = container ∧ outs = [] := by
  rw [step_outputs] at h
  cases hevent : isEvent line with
  | true =>
    rw [hevent, if_pos rfl] at h
    obtain ⟨rfl, rfl, rfl⟩ : outs = [] ∧ eventOutput _ _ _ line = o ∧ outs' = [] := by
      cases outs with
      | nil =>
        obtain ⟨ho, hnil⟩ := List.cons.inj h
        exact ⟨rfl, ho, hnil.symm⟩
      | cons o' outs => exact absurd (congrArg List.length h) (by simp)
    rw [uses_eventOutput] at ho
    exact ⟨rfl, Option.some.inj ho, rfl⟩
  | false =>
    rw [hevent, if_neg (by simp)] at h
    have hmem : o ∈ outs ++ o :: outs' := by simp
    rw [← h] at hmem
    cases hteam : teamOf line with
    | none =>
      rw [hteam] at hmem
      exact absurd hmem List.not_mem_nil
    | some thread =>
      rw [hteam, Option.elim_some] at hmem
      split at hmem
      · exact absurd hmem List.not_mem_nil
      · rw [List.mem_singleton.mp hmem] at ho
        cases ho

/-- A thread that is not number zero keeps its name. -/
theorem isZero_threadOf {line : Str} (h : threadOf line ≠ sZero) : isZero (threadOf line) = false := by
  rw [threadOf, renamed] at h ⊢
  split at h
  · exact absurd rfl h
  · next hzero => rw [if_neg hzero]; exact Bool.eq_false_iff.mpr hzero

/-- The container of an event is there. -/
theorem mem_created_iff {before : List Str} {line : Str} :
    threadOf line ∈ (after start.1 before).created ↔ BeganTeam before line := by
  rw [mem_after_created, start_created.1, List.mem_singleton, BeganTeam]
  by_cases hzero : threadOf line = sZero
  · simp [hzero]
  · simp only [hzero, false_or, teamOf_eq_some_iff, isZero_threadOf hzero, true_and]

/-- **Containers are created before they are used, and once,** exactly if every event comes from
    number zero or from a thread that began a team before. -/
theorem containers_created_iff (lines : List Str) :
    (CreatedBeforeUse (output lines) ∧ CreatedOnce (output lines)) ↔
      ∀ before line rest, lines = before ++ line :: rest → isEvent line = true →
        BeganTeam before line := by
  constructor
  · rintro ⟨hused, -⟩ before line rest rfl hevent
    have hstep : ∃ o, (step (after start.1 before) line).2 = [o] ∧ o.uses = some (threadOf line) := by
      rw [step_outputs, if_pos hevent]
      exact ⟨_, rfl, uses_eventOutput _ _ _ _⟩
    obtain ⟨o, hstep, ho⟩ := hstep
    have hsplit : output (before ++ line :: rest) =
        output before ++ o :: run (step (after start.1 before) line).1 rest := by
      rw [output, run_append, run, hstep, output, List.append_assoc, List.singleton_append]
    have hmem := hused _ _ _ hsplit _ ho
    rw [creates_output] at hmem
    exact mem_created_iff.mp hmem
  · intro h
    refine ⟨?_, ?_⟩
    · intro before o rest hsplit container ho
      cases before with
      | nil =>
        -- the first line of all creates `zero`
        rw [← (List.cons.inj hsplit).1] at ho
        cases ho
      | cons o' before =>
        obtain ⟨rfl, hrun⟩ := List.cons.inj hsplit
        obtain ⟨before', line, rest', outs, outs', rfl, hstep, rfl⟩ := exists_split_of_run hrun
        obtain ⟨hevent, rfl, rfl⟩ := uses_step hstep ho
        have hmem := mem_created_iff.mpr (h before' line rest' rfl hevent)
        rw [← creates_output] at hmem
        rwa [List.append_nil]
    · rw [CreatedOnce, creates_output]
      exact nodup_after (List.nodup_singleton sZero) lines

/-- An event on a thread that began no team. -/
theorem container_not_created :
    ¬ (CreatedBeforeUse (output ["ENTER 1 5 Region: \"main\" <1>".toList]) ∧
      CreatedOnce (output ["ENTER 1 5 Region: \"main\" <1>".toList])) := by
  rintro ⟨hused, -⟩
  have hout : output ["ENTER 1 5 Region: \"main\" <1>".toList] =
      [.createContainer 0 sZero, .pushState 0 "1".toList "main".toList "-1".toList []] := by
    decide +kernel
  have hmem := hused [.createContainer 0 sZero] _ [] hout _ rfl
  exact absurd hmem (by decide)

end OmpPrint
end Akypuera

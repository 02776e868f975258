import Akypuera.Otf2.Hierarchy

/-!
# What reading a line does

The fields of a line are in an array `hierarchy`, and cluster and host in an array `cluster`. The
number of fields of the first line is taken for right whatever it is. From two fields on all accesses
are inside, but **a first line of less than two fields is not complained about**, and elements that
are not there are read (`inside_lineRun`, `outside_lineRun`).

A line that is read and not converted is complained about. **A line without a newline is not read**,
so it goes without a complaint, unless the process has stopped before. The tokens are counted with an
`int j`, and the hosts with another `int`.
-/

set_option autoImplicit false

namespace Akypuera
namespace Otf2

open CText

/-- The arrays of the tokens of a line. -/
inductive Tokens where
  | hierarchy
  | cluster
  deriving DecidableEq

/-- An element is read of an array that has so many tokens. -/
structure Access where
  array : Tokens
  index : Nat
  tokens : Nat
  deriving DecidableEq

def Access.Inside (a : Access) : Prop := a.index < a.tokens

instance (a : Access) : Decidable a.Inside := inferInstanceAs (Decidable (_ < _))

/-- The error messages, for `PROGRAM` and `__FUNCTION__`. -/
def hierarchyMessage : String :=
  "[otf22paje] at nf_read_and_create_hierarchy,different number of hierarchy fields in " ++
    "hostfile.\nHierarchy fields are separated by a dot.\n"

def pairMessage : String :=
  "[otf22paje] at nf_read_and_create_hierarchy,different number of fields expected for " ++
    "cluster-host pair\nCluster-host pair fields are separated by a dash.\n"

/-- What becomes of a line. -/
inductive Fate where
  | converted
  /-- The message is written, and the process exits with 1. -/
  | stopped (message : String)
  /-- After an access outside anything may happen. -/
  | undefined
  | unread
  deriving DecidableEq

/-- The line is converted, or stops the process with a message. -/
def Fate.settled : Fate → Bool
  | .converted | .stopped _ => true
  | .undefined | .unread => false

/-- The accesses that a line makes, what `j` has counted up to after its two loops, and what becomes
    of it. -/
structure LineRun where
  accesses : List Access
  counts : List Nat
  fate : Fate
  deriving DecidableEq

/-- The accesses of `for (j = depth-1; j > 0; j--)`. -/
def levelAccesses (depth tokens : Nat) : Nat → List Access
  | 0 => []
  | j + 1 =>
      (if j + 2 = depth then [] else [⟨.hierarchy, j + 2, tokens⟩]) ++
        ⟨.hierarchy, j + 1, tokens⟩ :: levelAccesses depth tokens j

/-- The number of fields. -/
def fieldCount (line : Str) : Nat := (strtok '.' (cstr line)).length

/-- One line, when the lines before have this number of fields. -/
def lineRun (depth : Option Nat) (line : Str) : LineRun :=
  let hierarchy := strtok '.' (cstr line)
  let depth := depth.getD hierarchy.length
  if depth ≠ hierarchy.length then ⟨[], [hierarchy.length], .stopped hierarchyMessage⟩
  else
    let levels := levelAccesses depth hierarchy.length (depth - 1)
    -- `hierarchy[0]` and `hierarchy[j+1]`: `j` is 0 after the loop, and -1 without fields
    let fixed := [⟨.hierarchy, 0, hierarchy.length⟩, ⟨.hierarchy, min depth 1, hierarchy.length⟩]
    match hierarchy with
    | host :: _ :: _ =>
        let cluster := strtok '-' host
        let counts := [hierarchy.length, cluster.length]
        if cluster.length ≠ 2 then ⟨levels ++ fixed, counts, .stopped pairMessage⟩
        else
          -- `cluster[j]` in the loop, and `cluster[j-1]` after it
          ⟨levels ++ fixed ++ [⟨.cluster, 0, cluster.length⟩, ⟨.cluster, 1 - 1, cluster.length⟩],
            counts, .converted⟩
    | _ => ⟨levels ++ fixed, [hierarchy.length], .undefined⟩

/-- Lines, up to the first that is not converted. -/
def lineRuns (depth : Option Nat) : List Str → List LineRun
  | [] => []
  | line :: lines =>
      lineRun depth line ::
        if (lineRun depth line).fate = .converted then lineRuns (some (fieldCount line)) lines else []

/-- All lines of a file. The loop breaks at the end of the file before it looks at what stands
    after the last newline. -/
def fileRuns (text : Str) : List LineRun :=
  let runs := lineRuns none (endedLines text)
  if Ended text ∨ ∃ r ∈ runs, r.fate ≠ .converted then runs else runs ++ [⟨[], [], .unread⟩]

/-- A line that is converted registers a host. -/
def LineRun.registers (r : LineRun) : Bool := decide (r.fate = .converted)

/-- **Lines are read safely**: all accesses are inside, a line that is not converted stops the process
    with a message, and no `int` overflows. -/
structure SafeRuns (runs : List LineRun) : Prop where
  inside : ∀ r ∈ runs, ∀ a ∈ r.accesses, a.Inside
  settled : ∀ r ∈ runs, r.fate.settled = true
  counts : ∀ r ∈ runs, ∀ n ∈ r.counts, n < 2 ^ 31
  hosts : runs.countP LineRun.registers < 2 ^ 31

instance (runs : List LineRun) : Decidable (SafeRuns runs) :=
  decidable_of_iff ((∀ r ∈ runs, ∀ a ∈ r.accesses, a.Inside) ∧ (∀ r ∈ runs, r.fate.settled = true) ∧
      (∀ r ∈ runs, ∀ n ∈ r.counts, n < 2 ^ 31) ∧ runs.countP LineRun.registers < 2 ^ 31)
    ⟨fun h => ⟨h.1, h.2.1, h.2.2.1, h.2.2.2⟩, fun h => ⟨h.inside, h.settled, h.counts, h.hosts⟩⟩

def Safe (text : Str) : Prop := SafeRuns (fileRuns text)

instance (text : Str) : Decidable (Safe text) := inferInstanceAs (Decidable (SafeRuns _))

/-! ## One line -/

variable {depth : Option Nat} {line : Str}

/-- The accesses of a line with `n` fields to `hierarchy`. -/
def fieldAccesses (n : Nat) : List Access :=
  levelAccesses n n (n - 1) ++ [⟨.hierarchy, 0, n⟩, ⟨.hierarchy, min n 1, n⟩]

theorem lineRun_of_ne (h : depth.getD (fieldCount line) ≠ fieldCount line) :
    lineRun depth line = ⟨[], [fieldCount line], .stopped hierarchyMessage⟩ := if_pos h

theorem lineRun_of_short (h : depth.getD (fieldCount line) = fieldCount line)
    (hshort : fieldCount line < 2) :
    lineRun depth line =
      ⟨fieldAccesses (fieldCount line), [fieldCount line], .undefined⟩ := by
  rw [fieldCount] at h hshort
  rw [lineRun, h, fieldCount]
  rcases hfields : strtok '.' (cstr line) with _ | ⟨host, _ | ⟨x, xs⟩⟩
  · rfl
  · rfl
  · exact absurd hshort (by simp [hfields])

theorem lineRun_of_long {host x : Str} {xs : List Str}
    (h : depth.getD (fieldCount line) = fieldCount line)
    (hfields : strtok '.' (cstr line) = host :: x :: xs) :
    lineRun depth line =
      if (strtok '-' host).length ≠ 2 then
        ⟨fieldAccesses (fieldCount line), [fieldCount line, (strtok '-' host).length],
          .stopped pairMessage⟩
      else ⟨fieldAccesses (fieldCount line) ++ [⟨.cluster, 0, (strtok '-' host).length⟩,
        ⟨.cluster, 1 - 1, (strtok '-' host).length⟩], [fieldCount line, (strtok '-' host).length],
          .converted⟩ := by
  rw [fieldCount] at h
  rw [lineRun, h, fieldCount, hfields]
  exact if_neg (fun hne => hne rfl)

theorem lineOk_of_fields {host : Str} {xs : List Str} (hfields : strtok '.' (cstr line) = host :: xs) :
    lineOk (fieldCount line) line = true ↔ (strtok '-' host).length = 2 := by
  rw [lineOk, fieldCount, hfields, Bool.and_eq_true, beq_iff_eq, List.length_cons]
  exact and_iff_left (beq_self_eq_true _)

/-- A line with two fields or more. -/
theorem exists_fields (h : 2 ≤ fieldCount line) :
    ∃ host x xs, strtok '.' (cstr line) = host :: x :: xs := by
  rw [fieldCount] at h
  rcases hfields : strtok '.' (cstr line) with _ | ⟨host, _ | ⟨x, xs⟩⟩
  · exact absurd h (by simp [hfields])
  · exact absurd h (by simp [hfields])
  · exact ⟨host, x, xs, rfl⟩

/-- **What becomes of a line.** -/
theorem fate_lineRun (depth : Option Nat) (line : Str) :
    (lineRun depth line).fate =
      if depth.getD (fieldCount line) ≠ fieldCount line then .stopped hierarchyMessage
      else if fieldCount line < 2 then .undefined
      else if lineOk (fieldCount line) line = true then .converted else .stopped pairMessage := by
  by_cases hdepth : depth.getD (fieldCount line) = fieldCount line
  · rw [if_neg (fun hne => hne hdepth)]
    by_cases hshort : fieldCount line < 2
    · rw [if_pos hshort, lineRun_of_short hdepth hshort]
    · obtain ⟨host, x, xs, hfields⟩ := exists_fields (Nat.le_of_not_lt hshort)
      rw [if_neg hshort, lineRun_of_long hdepth hfields]
      by_cases hpair : (strtok '-' host).length = 2
      · rw [if_pos ((lineOk_of_fields hfields).mpr hpair), if_neg (fun hne => hne hpair)]
      · rw [if_neg fun hok => hpair ((lineOk_of_fields hfields).mp hok), if_pos hpair]
  · rw [if_pos hdepth, lineRun_of_ne hdepth]

theorem inside_levelAccesses {tokens j : Nat} (hj : j < tokens) {a : Access}
    (ha : a ∈ levelAccesses tokens tokens j) : a.Inside := by
  induction j with
  | zero => exact absurd ha List.not_mem_nil
  | succ j ih =>
    rw [levelAccesses] at ha
    rcases List.mem_append.mp ha with ha | ha
    · -- the level above, which is there unless this is the highest
      split at ha
      · exact absurd ha List.not_mem_nil
      · next hne =>
        rw [List.mem_singleton.mp ha]
        have hlt : j + 2 < tokens := by omega
        exact hlt
    · rcases List.mem_cons.mp ha with rfl | ha
      · exact hj
      · exact ih (Nat.lt_of_succ_lt hj) ha

theorem inside_fieldAccesses {n : Nat} (hn : 2 ≤ n) : ∀ a ∈ fieldAccesses n, a.Inside := by
  intro a ha
  rcases List.mem_append.mp ha with ha | ha
  · exact inside_levelAccesses (by omega) ha
  · rcases List.mem_pair.mp ha with rfl | rfl
    · exact (by omega : 0 < n)
    · exact (by omega : min n 1 < n)

/-- **From two fields on all accesses are inside.** -/
theorem inside_lineRun (hlong : 2 ≤ fieldCount line) :
    ∀ a ∈ (lineRun depth line).accesses, a.Inside := by
  by_cases hdepth : depth.getD (fieldCount line) = fieldCount line
  · obtain ⟨host, x, xs, hfields⟩ := exists_fields hlong
    rw [lineRun_of_long hdepth hfields]
    by_cases hpair : (strtok '-' host).length = 2
    · rw [if_neg (fun hne => hne hpair), hpair]
      exact List.forall_mem_append.mpr ⟨inside_fieldAccesses hlong, by decide⟩
    · rw [if_pos hpair]
      exact inside_fieldAccesses hlong
  · rw [lineRun_of_ne hdepth]
    exact fun a ha => absurd ha List.not_mem_nil

/-- **Below, the one behind the last field is read.** -/
theorem outside_lineRun (hshort : fieldCount line < 2) :
    ∃ a ∈ (lineRun none line).accesses, ¬ a.Inside := by
  refine ⟨⟨.hierarchy, min (fieldCount line) 1, fieldCount line⟩, ?_, ?_⟩
  · rw [lineRun_of_short rfl hshort]
    exact List.mem_append_right _ (by simp)
  · exact (by omega : ¬ min (fieldCount line) 1 < fieldCount line)

/-! ## The runs are those of the model -/

/-- How the process ends in a line. -/
def Fate.stop : Fate → Option Stop
  | .stopped _ => some (.exit 1)
  | .undefined => some .fault
  | .converted | .unread => none

/-- **A line that is converted** leaves its number of fields to the next. -/
theorem nfLine_of_converted {h : Hierarchy} (hfate : (lineRun h.depth line).fate = .converted) :
    ∃ h' outs, nfLine h line = .ok (h', outs) ∧ h'.depth = some (fieldCount line) := by
  rw [fate_lineRun] at hfate
  split at hfate
  · cases hfate
  · next hdepth =>
    split at hfate
    · cases hfate
    · next hlong =>
      split at hfate
      · next hok =>
        obtain ⟨host, x, xs, hfields⟩ := exists_fields (Nat.le_of_not_lt hlong)
        obtain ⟨cluster, name, hpair⟩ := List.length_eq_two.mp ((lineOk_of_fields hfields).mp hok)
        rw [not_not, fieldCount, hfields] at hdepth
        refine ⟨_, _, nfLine_eq ⟨hfields, name, hpair⟩ hdepth, ?_⟩
        rw [fieldCount, hfields]
        rfl
      · cases hfate

/-- **The others end the process.** -/
theorem nfLine_of_not_converted {h : Hierarchy} (hfate : (lineRun h.depth line).fate ≠ .converted) :
    ∃ stop, (lineRun h.depth line).fate.stop = some stop ∧ nfLine h line = .error stop := by
  by_cases hdepth : h.depth.getD (fieldCount line) = fieldCount line
  · by_cases hshort : fieldCount line < 2
    · rw [lineRun_of_short hdepth hshort]
      refine ⟨_, rfl, ?_⟩
      rw [fieldCount] at hdepth hshort
      rcases hfields : strtok '.' (cstr line) with _ | ⟨host, _ | ⟨x, xs⟩⟩ <;>
        rw [hfields] at hdepth hshort
      · simp only [nfLine, hfields, hdepth]
        rfl
      · simp only [nfLine, hfields, hdepth]
        rfl
      · exact absurd hshort (by simp)
    · obtain ⟨host, x, xs, hfields⟩ := exists_fields (Nat.le_of_not_lt hshort)
      have hno : ¬ (strtok '-' host).length = 2 := by
        intro hpair
        rw [lineRun_of_long hdepth hfields, if_neg (fun hne => hne hpair)] at hfate
        exact hfate rfl
      rw [lineRun_of_long hdepth hfields, if_pos hno]
      refine ⟨_, rfl, ?_⟩
      rw [fieldCount, hfields] at hdepth
      simp only [nfLine, hfields, hdepth]
      rw [if_neg (fun hne => hne rfl)]
      split
      · next hpair => exact absurd (congrArg List.length hpair) hno
      · rfl
  · rw [lineRun_of_ne hdepth]
    exact ⟨_, rfl, if_pos hdepth⟩

/-- **Lines are read to the end, or up to the one that ends the process.** -/
theorem nfLines_runs (h : Hierarchy) (lines : List Str) :
    (∃ r, nfLines h lines = .ok r) ∧ (∀ r ∈ lineRuns h.depth lines, r.fate = .converted) ∨
      ∃ r ∈ lineRuns h.depth lines, ∃ stop, r.fate.stop = some stop ∧
        nfLines h lines = .error stop := by
  induction lines generalizing h with
  | nil => exact .inl ⟨⟨_, rfl⟩, nofun⟩
  | cons line lines ih =>
    by_cases hfate : (lineRun h.depth line).fate = .converted
    · obtain ⟨h', outs, hok, hdepth⟩ := nfLine_of_converted hfate
      rw [lineRuns, if_pos hfate, nfLines, hok, ← hdepth]
      rcases ih h' with ⟨⟨r, hr⟩, hall⟩ | ⟨r, hr, stop, hstop, herr⟩
      · exact .inl ⟨⟨_, by simp only [hr]; rfl⟩, List.forall_mem_cons.mpr ⟨hfate, hall⟩⟩
      · exact .inr ⟨r, List.mem_cons_of_mem _ hr, stop, hstop, by simp only [herr]⟩
    · obtain ⟨stop, hstop, herr⟩ := nfLine_of_not_converted hfate
      rw [lineRuns, nfLines, herr]
      exact .inr ⟨_, List.mem_cons_self, stop, hstop, rfl⟩

/-! ## Which files are read safely -/

/-- The first line that is read has at least two fields. -/
def Deep (text : Str) : Prop := ∀ line ∈ (endedLines text).head?, 2 ≤ fieldCount line

/-- A line that is read has another number of fields than the first, or no pair of cluster and
    host. -/
def Rejected (text : Str) : Prop :=
  ∃ first ∈ (endedLines text).head?, ∃ line ∈ endedLines text,
    lineOk (fieldCount first) line = false

/-- The lines up to the first that does not have `d` fields, or has no pair. -/
def readLines (d : Nat) : List Str → List Str
  | [] => []
  | line :: lines => line :: if lineOk d line = true then readLines d lines else []

/-- What `j` counts in a line, when the lines before have `d` fields. -/
def ShortLine (d : Nat) (line : Str) : Prop :=
  fieldCount line < 2 ^ 31 ∧ (fieldCount line = d → (strtok '-' (hostOf line)).length < 2 ^ 31)

/-- **The lines that are read are short, and not too many of them have a host.** -/
def Short (text : Str) : Prop :=
  ∀ first ∈ (endedLines text).head?,
    (∀ line ∈ readLines (fieldCount first) (endedLines text), ShortLine (fieldCount first) line) ∧
      (readLines (fieldCount first) (endedLines text)).countP (lineOk (fieldCount first)) < 2 ^ 31

theorem fieldCount_of_lineOk {d : Nat} (h : lineOk d line = true) : fieldCount line = d := by
  obtain ⟨host, cluster, xs, hline, hlen⟩ := exists_of_lineOk h
  rw [fieldCount, hline.fields, List.length_cons, hlen]

/-- A line after others with two fields or more. -/
theorem fate_of_deep {d : Nat} (hd : 2 ≤ d) :
    (lineRun (some d) line).fate.settled = true ∧
      ((lineRun (some d) line).fate = .converted ↔ lineOk d line = true) := by
  rw [fate_lineRun, Option.getD_some]
  by_cases hdepth : d = fieldCount line
  · rw [if_neg (fun hne => hne hdepth), if_neg (by omega), ← hdepth]
    split
    · next hok => exact ⟨rfl, fun _ => hok, fun _ => rfl⟩
    · next hok => exact ⟨rfl, nofun, fun hok' => absurd hok' hok⟩
  · rw [if_pos hdepth]
    exact ⟨rfl, nofun, fun hok => absurd (fieldCount_of_lineOk hok).symm hdepth⟩

theorem inside_of_deep {d : Nat} (hd : 2 ≤ d) :
    ∀ a ∈ (lineRun (some d) line).accesses, a.Inside := by
  by_cases hdepth : d = fieldCount line
  · exact inside_lineRun (hdepth ▸ hd)
  · rw [lineRun_of_ne (by simpa using hdepth)]
    exact fun a ha => absurd ha List.not_mem_nil

/-- What is counted in a line after others with two fields or more. -/
theorem counts_of_deep {d : Nat} (hd : 2 ≤ d) :
    (∀ n ∈ (lineRun (some d) line).counts, n < 2 ^ 31) ↔ ShortLine d line := by
  by_cases hdepth : d = fieldCount line
  · subst hdepth
    obtain ⟨host, x, xs, hfields⟩ := exists_fields hd
    have hcounts : (lineRun (some (fieldCount line)) line).counts =
        [fieldCount line, (strtok '-' (hostOf line)).length] := by
      rw [lineRun_of_long rfl hfields, hostOf, hfields, List.headD_cons]
      split <;> rfl
    rw [hcounts, ShortLine, List.forall_mem_cons, List.forall_mem_singleton]
    exact and_congr_right' ⟨fun hlt _ => hlt, fun hlt => hlt rfl⟩
  · rw [lineRun_of_ne (by simpa using hdepth), ShortLine, List.forall_mem_singleton]
    exact (and_iff_left fun heq => absurd heq.symm hdepth).symm

/-- **After a first line with two fields or more** the process stops at the first line that is not
    fine. -/
theorem lineRuns_of_deep {d : Nat} (hd : 2 ≤ d) (lines : List Str) :
    lineRuns (some d) lines = (readLines d lines).map (lineRun (some d)) := by
  induction lines with
  | nil => rfl
  | cons line lines ih =>
    obtain ⟨-, hconv⟩ := @fate_of_deep line d hd
    rw [lineRuns, readLines, List.map_cons]
    by_cases hok : lineOk d line = true
    · rw [if_pos (hconv.mpr hok), if_pos hok, fieldCount_of_lineOk hok, ih]
    · rw [if_neg fun h => hok (hconv.mp h), if_neg hok, List.map_nil]

theorem exists_readLines {d : Nat} {lines : List Str} :
    (∃ line ∈ readLines d lines, lineOk d line = false) ↔
      ∃ line ∈ lines, lineOk d line = false := by
  induction lines with
  | nil => exact Iff.rfl
  | cons line lines ih =>
    rw [readLines, List.exists_mem_cons_iff, List.exists_mem_cons_iff]
    by_cases hok : lineOk d line = true
    · rw [if_pos hok, ih]
    · rw [if_neg hok]
      simp [hok]

/-- The first line is taken for right. -/
theorem lineRuns_cons (line : Str) (lines : List Str) :
    lineRuns none (line :: lines) = lineRuns (some (fieldCount line)) (line :: lines) := rfl

/-- The lines that are read have to be safe, and all lines have to be read. -/
theorem safe_iff_runs (text : Str) :
    Safe text ↔ SafeRuns (lineRuns none (endedLines text)) ∧
      (Ended text ∨ ∃ r ∈ lineRuns none (endedLines text), r.fate ≠ .converted) := by
  rw [Safe, fileRuns]
  by_cases hread : Ended text ∨ ∃ r ∈ lineRuns none (endedLines text), r.fate ≠ .converted
  · rw [if_pos hread]
    exact (and_iff_left hread).symm
  · rw [if_neg hread]
    refine iff_of_false (fun hall => ?_) fun h => hread h.2
    have hunread := hall.settled _ (List.mem_append_right _ List.mem_cons_self)
    exact absurd hunread Bool.false_ne_true

theorem safeRuns_iff {d : Nat} (hd : 2 ≤ d) (lines : List Str) :
    SafeRuns (lineRuns (some d) lines) ↔
      (∀ line ∈ readLines d lines, ShortLine d line) ∧
        (readLines d lines).countP (lineOk d) < 2 ^ 31 := by
  have hregisters : ∀ line, (LineRun.registers ∘ lineRun (some d)) line = lineOk d line := fun line =>
    Bool.eq_iff_iff.mpr (decide_eq_true_iff.trans (@fate_of_deep line d hd).2)
  have hhosts : ((readLines d lines).map (lineRun (some d))).countP LineRun.registers =
      (readLines d lines).countP (lineOk d) := by
    rw [List.countP_map, funext hregisters]
  rw [lineRuns_of_deep hd]
  constructor
  · rintro ⟨-, -, hcounts, hfew⟩
    refine ⟨fun line hline => (counts_of_deep hd).mp ?_, hhosts ▸ hfew⟩
    exact hcounts _ (List.mem_map_of_mem hline)
  · rintro ⟨hshort, hfew⟩
    refine ⟨?_, ?_, ?_, hhosts ▸ hfew⟩
    · exact List.forall_mem_map.mpr fun line _ => inside_of_deep hd
    · exact List.forall_mem_map.mpr fun line _ => (fate_of_deep hd).1
    · exact List.forall_mem_map.mpr fun line hline => (counts_of_deep hd).mpr (hshort line hline)

/-- **Which files are read safely**: those whose first line has two fields or more, and that have
    nothing after the last newline, unless a line before is rejected, as long as the `int`s do not
    overflow. -/
theorem safe_iff (text : Str) :
    Safe text ↔ (Deep text ∧ (Ended text ∨ Rejected text)) ∧ Short text := by
  rw [safe_iff_runs, Deep, Rejected, Short]
  rcases endedLines text with _ | ⟨first, lines⟩
  · have hnone : SafeRuns [] := by decide
    simp [lineRuns, hnone]
  · simp only [List.head?_cons, Option.mem_some_iff, forall_eq', exists_eq_left', lineRuns_cons]
    by_cases hd : 2 ≤ fieldCount first
    · have hrejected : (∃ r ∈ lineRuns (some (fieldCount first)) (first :: lines),
          r.fate ≠ .converted) ↔
          ∃ line ∈ first :: lines, lineOk (fieldCount first) line = false := by
        rw [lineRuns_of_deep hd, ← exists_readLines]
        simp only [List.mem_map, exists_exists_and_eq_and, ne_eq, (fate_of_deep hd).2,
          Bool.not_eq_true]
      rw [hrejected, safeRuns_iff hd, and_comm]
      exact and_congr_left' (and_iff_right hd).symm
    · obtain ⟨a, ha, hout⟩ := outside_lineRun (Nat.lt_of_not_le hd)
      have hmem : lineRun none first ∈
          lineRuns (some (fieldCount first)) (first :: lines) := List.mem_cons_self
      exact iff_of_false (fun h => hout (h.1.inside _ hmem a ha)) fun h => hd h.1.1

/-- **A file that is read safely** is converted as a whole, or the process exits with 1. -/
theorem read_of_safe {text : Str} (h : Safe text) :
    (∃ r, nfReadAndCreateHierarchy Hierarchy.init text = .ok r) ∧
        (∀ r ∈ fileRuns text, r.fate = .converted) ∨
      nfReadAndCreateHierarchy Hierarchy.init text = .error (.exit 1) := by
  obtain ⟨hsafe, hread⟩ := (safe_iff_runs text).mp h
  rcases nfLines_runs Hierarchy.init (endedLines text) with ⟨hok, hall⟩ | ⟨r, hr, stop, hstop, herr⟩
  · refine .inl ⟨hok, ?_⟩
    rw [fileRuns, if_pos hread]
    exact hall
  · have hsettled := hsafe.settled r hr
    refine .inr (herr.trans (congrArg Except.error ?_))
    cases hfate : r.fate with
    | converted | unread =>
      rw [hfate] at hstop
      cases hstop
    | stopped message =>
      rw [hfate] at hstop
      exact (Option.some.inj hstop).symm
    | undefined =>
      rw [hfate] at hsettled
      exact absurd hsettled Bool.false_ne_true

/-- An empty line, a host alone, and a line without a newline. -/
theorem not_safe :
    ¬ Safe "\n".toList ∧ ¬ Safe "a-1\n".toList ∧ ¬ Safe "a-1.s".toList := by
  refine ⟨?_, ?_, ?_⟩ <;> decide

end Otf2
end Akypuera

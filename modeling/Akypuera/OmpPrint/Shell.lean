import Akypuera.Lib.Julia
import Akypuera.Lib.Words
import Akypuera.OmpPrint.Script

/-!
# `otf2ompprint2paje.sh` and `otf2ompprint2paje.jl`

Both drop the first five lines of what `otf2-print` prints and go through the rest. The shell gets the
fields of a line from `cut`, and takes every line; Julia splits it into words, and takes those with
three or more. What follows is the same: a container for a thread that was not there before, then a
push or a pop.

`tids` is an associative array in the shell, and **an assignment to an element without a name ends the
loop**, which runs in a subshell of its own. That is what a blank line comes to, after a container
without a name was written. **Julia ends at a third word that is no number**, which `parse` throws an
error for; the shell hands it on to `bc`.
-/

set_option autoImplicit false

namespace Akypuera
namespace OmpPrint

open CText Words Julia

/-- What the shell does something with in a text that is not quoted: it reads a backslash, and looks
    for files where there is a pattern. -/
def metacharacters : List Char := ['\\', '*', '?', '[']

/-- White space, as Julia has it. -/
def isWhite (c : Char) : Bool :=
  let n := c.toNat
  9 ≤ n && n ≤ 13 || n = 32 || n = 0x85 || n = 0xA0 || n = 0x1680 || 0x2000 ≤ n && n ≤ 0x200A ||
    n = 0x2028 || n = 0x2029 || n = 0x202F || n = 0x205F || n = 0x3000

/-- A word that `echo` takes for an option, if it comes first. -/
def isOption (word : Str) : Bool :=
  word.head? = some '-' && word.tail ≠ [] && word.tail.all (· ∈ "neE".toList)

/-- A line that `otf2-print` may print, without its newline and without metacharacters. Its white
    space is blanks and tabs, and `echo` does not take its first word for an option. -/
structure IsPrinted (line : Str) : Prop where
  plain : ∀ c ∈ line, c ∉ metacharacters
  blanks : ∀ c ∈ line, isWhite c = true → isBlank c = true
  noOption : (words line)[0]?.all (!isOption ·) = true

theorem isPrinted_iff (line : Str) :
    IsPrinted line ↔
      line.all (!metacharacters.contains ·) = true ∧
        line.all (fun c => !isWhite c || isBlank c) = true ∧
        (words line)[0]?.all (!isOption ·) = true := by
  have hblanks : line.all (fun c => !isWhite c || isBlank c) = true ↔
      ∀ c ∈ line, isWhite c = true → isBlank c = true := by
    simp [or_iff_not_imp_left]
  rw [hblanks]
  constructor
  · intro h
    exact ⟨by simpa using h.plain, h.blanks, h.noOption⟩
  · rintro ⟨hplain, hblanks, hnoOption⟩
    exact ⟨by simpa using hplain, hblanks, hnoOption⟩

instance (line : Str) : Decidable (IsPrinted line) := decidable_of_iff _ (isPrinted_iff line).symm

/-- What `otf2-print` prints. The first five lines are not looked at. -/
structure Printout where
  lines : List Str
  printed : ∀ line ∈ lines.drop 5, IsPrinted line

/-- The lines that `tail -n +6` gives. -/
def Printout.events (input : Printout) : List Str := input.lines.drop 5

/-- A time as it is written: a time stamp less the first one, over a million. -/
structure Stamp where
  timestamp : Str
  first : Str
  deriving DecidableEq

/-- A line of the three kinds, with a time. -/
inductive Written (τ : Type) where
  | createContainer (time : τ) (tid : Str)
  | pushState (time : τ) (tid state : Str)
  | popState (time : τ) (tid : Str)
  deriving DecidableEq

/-- Less its time. -/
def Written.untimed {τ : Type} : Written τ → Written Unit
  | createContainer _ tid => .createContainer () tid
  | pushState _ tid state => .pushState () tid state
  | popState _ tid => .popState () tid

/-- `TID="zero"`, for a thread that is `0`. -/
def rename (tid : Str) : Str := if tid = "0".toList then sZero else tid

/-- `sed "s/\"//g"`. -/
def unquoted (s : Str) : Str := s.filter (· ≠ '"')

/-! ## The shell -/

/-- `$FIRST_TIMESTAMP` and the names of the elements of `tids`. -/
structure ShellState where
  firstTimestamp : Str
  tids : List Str

/-- A round of the loop. `none` is the end of the loop. -/
def shellStep (st : ShellState) (line : Str) : Option ShellState × List (Written Stamp) :=
  let linha := joined (words line)
  let code := cut 1 1 linha
  let tid := cut 2 2 linha
  let timestamp := cut 3 3 linha
  let first := if st.firstTimestamp = [] then timestamp else st.firstTimestamp
  let time := { timestamp := timestamp, first := first }
  let tid := rename tid
  let created := if tid ∈ st.tids then [] else [Written.createContainer time tid]
  if tid = [] then (none, created)
  else
    let tids := if tid ∈ st.tids then st.tids else st.tids ++ [tid]
    let state := unquoted (cut 5 20 linha)
    let event :=
      if code = sEnter then [Written.pushState time tid state]
      else if code = sLeave then [Written.popState time tid]
      else []
    (some { firstTimestamp := first, tids := tids }, created ++ event)

def shellRun (st : ShellState) : List Str → List (Written Stamp)
  | [] => []
  | line :: lines =>
      match shellStep st line with
      | (some st, outs) => outs ++ shellRun st lines
      | (none, outs) => outs

/-- What the shell writes after its header. -/
def shell (input : Printout) : List (Written Stamp) :=
  shellRun { firstTimestamp := [], tids := [] } input.events

/-! ## Julia -/

/-- `FIRST_TIMESTAMP`, where `none` is the `-Inf` that it begins with, and `tids`. -/
structure JuliaState where
  firstTimestamp : Option Str
  tids : List Str

/-- `FIRST_TIMESTAMP` behind a line: one that is negative is not kept. -/
def JuliaState.first (st : JuliaState) (timestamp : Str) : Str :=
  match st.firstTimestamp with
  | none => timestamp
  | some first => if (parseFloat64 first).any Number.isNegative then timestamp else first

/-- A round of the loop. `none` is the end of the program, by an error. -/
def juliaStep (st : JuliaState) (l : Str) : Option JuliaState × List (Written Stamp) :=
  match words l with
  | code :: tid :: timestamp :: rest =>
      match parseFloat64 timestamp with
      | none => (none, [])
      | some _ =>
          let first := st.first timestamp
          let time := { timestamp := timestamp, first := first }
          let tid := rename tid
          let created := if tid ∈ st.tids then [] else [Written.createContainer time tid]
          let tids := if tid ∈ st.tids then st.tids else st.tids ++ [tid]
          let event :=
            if code = sEnter then
              [Written.pushState time tid (unquoted (joined (rest.drop 1)))]
            else if code = sLeave then [Written.popState time tid]
            else []
          (some { firstTimestamp := some first, tids := tids }, created ++ event)
  | _ => (some st, [])

def juliaRun (st : JuliaState) : List Str → List (Written Stamp)
  | [] => []
  | l :: lines =>
      match juliaStep st l with
      | (some st, outs) => outs ++ juliaRun st lines
      | (none, outs) => outs

/-- What Julia writes after its header. Behind the newline of the last line there is one more piece,
    which is empty. -/
def julia (input : Printout) : List (Written Stamp) :=
  juliaRun { firstTimestamp := none, tids := [] } (input.events ++ [[]])

/-! ## The fields of a line -/

/-- `$CODE` and `$TID` of a line. -/
def codeOf (line : Str) : Str := cut 1 1 (joined (words line))

def tidOf (line : Str) : Str := rename (cut 2 2 (joined (words line)))

/-- A line that Julia takes. -/
def isLong (line : Str) : Bool := 3 ≤ (words line).length

/-- A line whose third word, where it has one, is a number. -/
def isRead (line : Str) : Bool := (words line)[2]?.all fun w => (parseFloat64 w).isSome

/-- A line whose third word, where it has one, is a time stamp as `otf2-print` writes it. -/
def isStamped (line : Str) : Bool := (words line)[2]?.all (·.all Char.isDigit)

/-- A line of an event. -/
def isEventLine (line : Str) : Bool := codeOf line = sEnter || codeOf line = sLeave

end OmpPrint
end Akypuera

import Akypuera.Lib.Lines
import Akypuera.Lib.CText

/-!
# Comment files (`aky_utils.c`, `aky_dump_comment_file`)

The file is read byte by byte with `fgetc`, and `feof` says whether the last read went past the end:
the loops ask it at three places, and none of them asks the byte. So `EOF` can be cut to a `char`, a
byte `0xFF` in the file is an ordinary one, and the three ways a file can end (in no line, after a
newline, in the middle of a line) lead to the same text: the lines of the file, each behind `# `.
-/

set_option autoImplicit false

namespace Akypuera
namespace Converter

open CText Lines

/-- A file that is open for reading: what is left of it, and the flag of `feof`. -/
structure Stream where
  rest : List UInt8
  eof : Bool

/-- `fgetc (file)`; `EOF` is -1. -/
def Stream.fgetc (file : Stream) : Int × Stream :=
  match file.rest with
  | [] => (-1, { file with eof := true })
  | b :: rest => (b.toNat, { file with rest := rest })

/-- `(char)` of what `fgetc` answers, as the byte that `%c` prints. -/
def toChar (c : Int) : UInt8 := UInt8.ofInt c

def newline : UInt8 := '\n'.toUInt8

/-- `printf ("# ")`. -/
def commentMark : List UInt8 := ['#'.toUInt8, ' '.toUInt8]

/-- The inner loop, from a character on: what it prints. -/
def dumpLine : Nat → Stream → UInt8 → Option (Stream × List UInt8)
  | 0, _, _ => none
  | fuel + 1, file, c =>
      if c = newline then some (file, [])
      else
        let (next, file) := file.fgetc
        if file.eof then some (file, [c])
        else do
          let (file, out) ← dumpLine fuel file (toChar next)
          return (file, c :: out)

/-- The outer loop. -/
def dumpLines : Nat → Stream → Option (List UInt8)
  | 0, _ => none
  | fuel + 1, file =>
      if file.eof then some []
      else
        let (c, file) := file.fgetc
        if file.eof then some []
        else do
          let (file, line) ← dumpLine (fuel + 1) file (toChar c)
          let out ← dumpLines fuel file
          return commentMark ++ line ++ [newline] ++ out

/-- What `aky_dump_comment_file` answers and writes. -/
structure Dumped where
  ret : Int
  stdout : List UInt8
  stderr : Str

/-- `aky_dump_comment_file (program, filename)`; a file that cannot be opened is `none`. -/
def akyDumpCommentFile (fuel : Nat) (program filename : Str) : Option (List UInt8) → Option Dumped
  | none =>
      some { ret := 1, stdout := [],
             stderr := "[".toList ++ program ++
               "] at aky_dump_comment_file, comment file ".toList ++ filename ++
               " could not be opened for reading\n".toList }
  | some bytes => do
      let stdout ← dumpLines fuel { rest := bytes, eof := false }
      return { ret := 0, stdout := stdout, stderr := [] }

theorem toChar_toNat (b : UInt8) : toChar b.toNat = b := by
  have hmod : ((b.toNat : Int) % 2 ^ 8).toNat = b.toNat := by
    have hlt := b.toNat_lt
    omega
  rw [toChar, UInt8.ofInt, hmod, UInt8.ofNat_toNat]

/-- A character that is not the last one of its line. -/
theorem dumpLine_cons {c : UInt8} (hc : c ≠ newline) (fuel : Nat) (d : UInt8) (rest : List UInt8) :
    dumpLine (fuel + 1) { rest := d :: rest, eof := false } c =
      (dumpLine fuel { rest := rest, eof := false } d).map fun r => (r.1, c :: r.2) := by
  rw [dumpLine, if_neg hc]
  simp only [Stream.fgetc, Bool.false_eq_true, if_false, toChar_toNat]
  cases dumpLine fuel { rest := rest, eof := false } d with
  | none => rfl
  | some r => rfl

/-- A line that ends: the newline is read, and nothing behind it. -/
theorem dumpLine_ended {fuel : Nat} {c : UInt8} {w rest : List UInt8} (h : newline ∉ c :: w)
    (hfuel : w.length + 1 < fuel) :
    dumpLine fuel { rest := w ++ newline :: rest, eof := false } c =
      some ({ rest := rest, eof := false }, c :: w) := by
  induction w generalizing fuel c with
  | nil =>
    obtain ⟨fuel, rfl⟩ : ∃ n, fuel = n + 2 := ⟨fuel - 2, by rw [List.length_nil] at hfuel; omega⟩
    have hc : c ≠ newline := fun heq => h (by rw [heq]; exact List.mem_cons_self)
    rw [List.nil_append, dumpLine_cons hc, dumpLine, if_pos rfl]
    rfl
  | cons d w ih =>
    obtain ⟨fuel, rfl⟩ : ∃ n, fuel = n + 1 := ⟨fuel - 1, by omega⟩
    rw [List.mem_cons, not_or] at h
    rw [List.cons_append, dumpLine_cons (Ne.symm h.1), ih h.2 (Nat.lt_of_succ_lt_succ hfuel)]
    rfl

/-- A line that does not: the end of the file is seen. -/
theorem dumpLine_open {fuel : Nat} {c : UInt8} {w : List UInt8} (h : newline ∉ c :: w)
    (hfuel : w.length < fuel) :
    dumpLine fuel { rest := w, eof := false } c = some ({ rest := [], eof := true }, c :: w) := by
  induction w generalizing fuel c with
  | nil =>
    obtain ⟨fuel, rfl⟩ : ∃ n, fuel = n + 1 := ⟨fuel - 1, by omega⟩
    have hc : c ≠ newline := fun heq => h (by rw [heq]; exact List.mem_cons_self)
    rw [dumpLine, if_neg hc]
    rfl
  | cons d w ih =>
    obtain ⟨fuel, rfl⟩ : ∃ n, fuel = n + 1 := ⟨fuel - 1, by omega⟩
    rw [List.mem_cons, not_or] at h
    rw [dumpLine_cons (Ne.symm h.1), ih h.2 (Nat.lt_of_succ_lt_succ hfuel)]
    rfl

/-- A line of a comment file in the output. -/
def commented (line : List UInt8) : List UInt8 := commentMark ++ line

/-- What is written for the bytes of a file. -/
def commentText (bytes : List UInt8) : List UInt8 :=
  (lines newline bytes).flatMap fun line => commented line ++ [newline]

theorem commentText_ended {w : List UInt8} (rest : List UInt8) (hw : newline ∉ w) :
    commentText (w ++ newline :: rest) = commented w ++ [newline] ++ commentText rest := by
  rw [commentText, lines_append_cons rest hw, List.flatMap_cons, commentText]

theorem commentText_open {w : List UInt8} (hne : w ≠ []) (hw : newline ∉ w) :
    commentText w = commented w ++ [newline] := by
  rw [commentText, lines_of_not_mem hne hw, List.flatMap_cons, List.flatMap_nil, List.append_nil]

/-- **The loops write the lines**, in as many rounds as there are bytes, and one. -/
theorem dumpLines_eq {fuel : Nat} : ∀ {bytes : List UInt8}, bytes.length < fuel →
    dumpLines fuel { rest := bytes, eof := false } = some (commentText bytes) := by
  induction fuel with
  | zero => exact fun h => absurd h (Nat.not_lt_zero _)
  | succ fuel ih =>
    intro bytes hfuel
    cases bytes with
    | nil => rfl
    | cons c rest =>
      have hlt : rest.length < fuel := Nat.lt_of_succ_lt_succ hfuel
      rw [dumpLines]
      simp only [Stream.fgetc, Bool.false_eq_true, if_false, toChar_toNat]
      rcases cut_cases newline (c :: rest) with hopen | ⟨w, rest', hcut, hw⟩
      · -- the file ends in this line, and the next round sees that
        have hend : dumpLines fuel { rest := [], eof := true } = some [] := by
          obtain ⟨n, rfl⟩ : ∃ n, fuel = n + 1 := ⟨fuel - 1, by omega⟩
          rfl
        rw [dumpLine_open hopen (hlt.trans (Nat.lt_succ_self _)),
          commentText_open (List.cons_ne_nil c rest) hopen]
        simp [hend, commented]
      · rw [hcut, commentText_ended rest' hw]
        cases w with
        | nil =>
          -- an empty line
          obtain ⟨rfl, rfl⟩ := List.cons.inj hcut
          rw [dumpLine, if_pos rfl]
          simp [ih hlt, commented]
        | cons d w =>
          obtain ⟨rfl, hrest⟩ := List.cons.inj hcut
          rw [List.append_eq] at hrest
          subst hrest
          rw [List.length_append, List.length_cons] at hlt
          rw [dumpLine_ended hw (by omega)]
          simp [ih (by omega : rest'.length < fuel), commented]

/-- **A comment file is echoed line by line**: the function ends, answers 0 and writes the lines of
    the file, each behind `# ` and ended; so these are the lines of the output. -/
theorem akyDumpCommentFile_eq (program filename : Str) (bytes : List UInt8) {fuel : Nat}
    (hfuel : bytes.length < fuel) :
    ∃ out, akyDumpCommentFile fuel program filename (some bytes) =
        some { ret := 0, stdout := out, stderr := [] } ∧
      out = (lines newline bytes).flatMap (fun line => commentMark ++ line ++ [newline]) ∧
      lines newline out = (lines newline bytes).map (commentMark ++ ·) := by
  refine ⟨commentText bytes, ?_, rfl, ?_⟩
  · simp [akyDumpCommentFile, dumpLines_eq hfuel]
  · apply lines_flatMap
    intro line hline
    rw [commented, List.mem_append, not_or]
    exact ⟨by decide, not_mem_of_mem_lines hline⟩

/-- A byte `0xFF`, an empty line and a last line that does not end. -/
theorem akyDumpCommentFile_open :
    ∃ out, akyDumpCommentFile 5 "tau2paje".toList "notes".toList (some [255, 10, 10, 97]) =
        some { ret := 0, stdout := out, stderr := [] } ∧
      out = (lines newline [255, 10, 10, 97]).flatMap
        (fun line => commentMark ++ line ++ [newline]) ∧
      lines newline out = (lines newline [255, 10, 10, 97]).map (commentMark ++ ·) :=
  akyDumpCommentFile_eq _ _ _ (by decide)

end Converter
end Akypuera

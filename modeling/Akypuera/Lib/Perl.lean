import Akypuera.Lib.CText

/-!
# Texts as Perl rewrites them

The substitutions that a script makes line by line, each for a pattern of one kind: a character or a
text that is looked for, and what it is replaced by. A pattern that does not match leaves the text
alone. `split` and the numeric value of a text (`numify`) are those of the language.

Of the substitutions it is proved only that **they keep the beginning of a text** that has none of
the characters they look for. So a script may look at what a line begins with before or after.
-/

set_option autoImplicit false

namespace Perl

open CText

/-- `$s =~ /^text/`. -/
def beginsWith (text s : Str) : Bool := text.isPrefixOf s

/-- `s/c([0123456789])/d\1/g`. -/
def mapBeforeDigit (c d : Char) : Str → Str
  | [] => []
  | x :: s => (if x = c ∧ s.head?.any Char.isDigit then d else x) :: mapBeforeDigit c d s

/-- `tr/c/d/`. -/
def tr (c d : Char) (s : Str) : Str := s.map fun x => if x = c then d else x

/-- `s/c+/d/g`: a run of `c` is one `d`. -/
def squeeze (c d : Char) : Str → Str
  | [] => []
  | x :: s =>
      if x = c then
        if s.head? = some c then squeeze c d s else d :: squeeze c d s
      else x :: squeeze c d s

/-- What stands behind the last `text`. -/
def behindLast (text : Str) : Str → Option Str
  | [] => if text = [] then some [] else none
  | x :: s =>
      match behindLast text s with
      | some rest => some rest
      | none => if beginsWith text (x :: s) then some ((x :: s).drop text.length) else none

/-- `s/.*text//`. -/
def cutThrough (text s : Str) : Str := (behindLast text s).getD s

/-- What stands before the first `text`, and behind it. -/
def cutAt (text : Str) : Str → Option (Str × Str)
  | [] => if text = [] then some ([], []) else none
  | x :: s =>
      if beginsWith text (x :: s) then some ([], (x :: s).drop text.length)
      else (cutAt text s).map fun (before, behind) => (x :: before, behind)

/-- `s/first.*last//`: from the first `first` to the last `last` behind it. -/
def cutBetween (first last s : Str) : Str :=
  match cutAt first s with
  | none => s
  | some (before, behind) =>
      match behindLast last behind with
      | none => s
      | some rest => before ++ rest

/-- `s/, /,/g`. -/
def joinCommas : Str → Str
  | [] => []
  | ',' :: ' ' :: s => ',' :: joinCommas s
  | x :: s => x :: joinCommas s

/-- `s/^[^c]*c//`. -/
def cutThroughFirst (c : Char) (s : Str) : Str :=
  if c ∈ s then (s.dropWhile (· ≠ c)).tail else s

/-- `s/c[^c]*$//`. -/
def cutFromLast (c : Char) (s : Str) : Str :=
  if c ∈ s then (s.rdropWhile (· ≠ c)).dropLast else s

/-- `split (/c/, $s)` into a few variables, the later of which stay undefined if there are not enough
    pieces. A text that is empty has none. -/
def fields (c : Char) (s : Str) : List Str := if s = [] then [] else s.splitOn c

/-- `split (c, $s)` into an array, which drops the empty pieces at the end. -/
def split (c : Char) (s : Str) : List Str := (fields c s).rdropWhile (· = [])

/-! ## The beginning of a text -/

theorem beginsWith_iff {text s : Str} : beginsWith text s = true ↔ ∃ rest, s = text ++ rest := by
  rw [beginsWith, List.isPrefixOf_iff_prefix]
  constructor
  · rintro ⟨rest, rfl⟩
    exact ⟨rest, rfl⟩
  · rintro ⟨rest, rfl⟩
    exact List.prefix_append text rest

/-- A text begins in one way. -/
theorem beginsWith_eq_false {text other s : Str} (h : beginsWith text s = true)
    (hne : ¬ (text <+: other ∨ other <+: text)) : beginsWith other s = false := by
  rw [beginsWith, List.isPrefixOf_iff_prefix] at h
  rw [beginsWith, Bool.eq_false_iff, ne_eq, List.isPrefixOf_iff_prefix]
  exact fun h' => hne (List.prefix_or_prefix_of_prefix h h')

variable {c d : Char} {text : Str}

theorem mapBeforeDigit_append (h : c ∉ text) (s : Str) :
    mapBeforeDigit c d (text ++ s) = text ++ mapBeforeDigit c d s := by
  induction text with
  | nil => rfl
  | cons x text ih =>
    rw [List.mem_cons, not_or] at h
    rw [List.cons_append, mapBeforeDigit, if_neg fun hx => h.1 hx.1.symm, ih h.2, List.cons_append]

theorem tr_append (h : c ∉ text) (s : Str) : tr c d (text ++ s) = text ++ tr c d s := by
  have htext : tr c d text = text := by
    apply (List.map_congr_left _).trans (List.map_id text)
    intro x hx
    exact if_neg (fun hxc => h (by rwa [← hxc]))
  rw [tr, List.map_append]
  exact congrArg (· ++ tr c d s) htext

theorem squeeze_append (h : c ∉ text) (s : Str) :
    squeeze c d (text ++ s) = text ++ squeeze c d s := by
  induction text with
  | nil => rfl
  | cons x text ih =>
    rw [List.mem_cons, not_or] at h
    rw [List.cons_append, squeeze, if_neg (Ne.symm h.1), ih h.2, List.cons_append]

theorem cutAt_append (h : c ∉ text) (s : Str) :
    cutAt [c] (text ++ s) = (cutAt [c] s).map fun (before, behind) => (text ++ before, behind) := by
  induction text with
  | nil => simp
  | cons x text ih =>
    rw [List.mem_cons, not_or] at h
    have hx : ¬ beginsWith [c] (x :: (text ++ s)) = true := by
      simp [beginsWith, h.1]
    rw [List.cons_append, cutAt, if_neg hx, ih h.2, Option.map_map]
    rfl

theorem cutBetween_append (h : c ∉ text) (last s : Str) :
    cutBetween [c] last (text ++ s) = text ++ cutBetween [c] last s := by
  rw [cutBetween, cutAt_append h, cutBetween]
  cases cutAt [c] s with
  | none => rfl
  | some cut =>
    cases hlast : behindLast last cut.2 with
    | none => simp [hlast]
    | some rest => simp [hlast]

/-- The first piece begins as the text does. -/
theorem exists_fields_append (h : c ∉ text) (hne : text ≠ []) (s : Str) :
    ∃ rest ws, fields c (text ++ s) = (text ++ rest) :: ws := by
  rw [fields, if_neg (by simp [hne])]
  clear hne
  induction text with
  | nil =>
    obtain ⟨w, ws, hs⟩ := List.exists_cons_of_ne_nil (List.splitOn_ne_nil c s)
    exact ⟨w, ws, hs⟩
  | cons x text ih =>
    rw [List.mem_cons, not_or] at h
    obtain ⟨rest, ws, hws⟩ := ih h.2
    refine ⟨rest, ws, ?_⟩
    rw [List.cons_append, List.splitOn_cons_eq_if_modifyHead, if_neg (by simpa using Ne.symm h.1),
      hws, List.modifyHead_cons, List.cons_append]

/-- What is squeezed is gone. -/
theorem not_mem_squeeze (h : c ≠ d) (s : Str) : c ∉ squeeze c d s := by
  induction s with
  | nil => exact List.not_mem_nil
  | cons x s ih =>
    unfold squeeze
    split
    · split
      · exact ih
      · exact List.not_mem_cons_of_ne_of_not_mem h ih
    · next hx => exact List.not_mem_cons_of_ne_of_not_mem (Ne.symm hx) ih

theorem mem_of_mem_splitOn {s w : Str} {x : Char} (hw : w ∈ s.splitOn c) (hx : x ∈ w) : x ∈ s := by
  induction s generalizing w with
  | nil =>
    rw [List.splitOn_nil, List.mem_singleton] at hw
    rwa [hw] at hx
  | cons y s ih =>
    rw [List.splitOn_cons_eq_if_modifyHead] at hw
    split at hw
    · rcases List.mem_cons.mp hw with rfl | hw
      · exact absurd hx List.not_mem_nil
      · exact List.mem_cons_of_mem _ (ih hw hx)
    · obtain ⟨v, vs, hvs⟩ := List.exists_cons_of_ne_nil (List.splitOn_ne_nil c s)
      rw [hvs, List.modifyHead_cons] at hw
      rw [hvs] at ih
      rcases List.mem_cons.mp hw with rfl | hw
      · rcases List.mem_cons.mp hx with rfl | hx
        · exact List.mem_cons_self
        · exact List.mem_cons_of_mem _ (ih List.mem_cons_self hx)
      · exact List.mem_cons_of_mem _ (ih (List.mem_cons_of_mem _ hw) hx)

/-- A piece has what the text has. -/
theorem mem_of_mem_fields {s w : Str} {x : Char} (hw : w ∈ fields c s) (hx : x ∈ w) : x ∈ s := by
  unfold fields at hw
  split at hw
  · exact absurd hw List.not_mem_nil
  · exact mem_of_mem_splitOn hw hx

/-! ## Numbers -/

def isSpace (c : Char) : Bool :=
  c = ' ' || c = '\t' || c = '\n' || c = '\r' || c = Char.ofNat 11 || c = Char.ofNat 12

/-- Whether a text begins with a minus, and what stands behind the sign. -/
def sign : Str → Bool × Str
  | '-' :: s => (true, s)
  | '+' :: s => (false, s)
  | s => (false, s)

/-- The digits that a text begins with, those behind a point, and the rest. -/
def digits (s : Str) : Str × Str × Str :=
  let whole := s.takeWhile Char.isDigit
  match s.dropWhile Char.isDigit with
  | '.' :: s => (whole, s.takeWhile Char.isDigit, s.dropWhile Char.isDigit)
  | s => (whole, [], s)

/-- The power of ten that a text begins with. -/
def exponent : Str → Int
  | c :: s =>
      if c = 'e' ∨ c = 'E' then
        let (minus, s) := sign s
        let n : Nat := Nat.ofDigitChars 10 (s.takeWhile Char.isDigit) 0
        if minus then -n else n
      else 0
  | [] => 0

/-- The numeric value of a text, that of the number it begins with. -/
def numify (s : Str) : ℚ :=
  let (minus, s) := sign (s.dropWhile isSpace)
  let (whole, fraction, rest) := digits s
  let n : Nat := Nat.ofDigitChars 10 (whole ++ fraction) 0
  let q := (n : ℚ) * 10 ^ (exponent rest - fraction.length)
  if minus then -q else q

/-- A text that stands for an infinite number, or for none. -/
def notFinite (s : Str) : Bool :=
  let word := ((sign (s.dropWhile isSpace)).2.take 3).map Char.toLower
  word = "inf".toList || word = "nan".toList

/-- `$s == "0"`: the two are compared as numbers. -/
def isZero (s : Str) : Bool :=
  let (whole, fraction, _) := digits (sign (s.dropWhile isSpace)).2
  !notFinite s && (whole ++ fraction).all (· = '0')

end Perl

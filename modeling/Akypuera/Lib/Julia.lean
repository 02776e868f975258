import Akypuera.Lib.Perl

/-!
# Numbers as Julia reads them

`parse (Float64, s)` takes a whole text: a decimal or a hexadecimal number, with a point and an
exponent where there are any, or the name of what is no finite number. Any other text is an error.
Of the number, only the sign is asked for here, so it is kept as it is written.
-/

set_option autoImplicit false

namespace Julia

open CText

/-- What a text can stand for. -/
inductive Number where
  | finite (q : ℚ)
  | infinite (minus : Bool)
  | nan
  deriving DecidableEq

/-- The value of a digit, up to that of `f`. -/
def digitValue (c : Char) : Nat :=
  if c.isDigit then c.toNat - '0'.toNat else c.toLower.toNat - 'a'.toNat + 10

def isHexDigit (c : Char) : Bool := c.isDigit || 'a' ≤ c.toLower && c.toLower ≤ 'f'

/-- The digits of a base: ten or sixteen. -/
def isDigitOf (base : Nat) (c : Char) : Bool := if base = 10 then c.isDigit else isHexDigit c

def digitsValue (base : Nat) (s : Str) : Nat := s.foldl (fun n c => base * n + digitValue c) 0

/-- What stands behind the digits: nothing, or a letter and a decimal number. -/
def exponent (letter : Char) : Str → Option Int
  | [] => some 0
  | c :: s =>
      let (minus, s) := Perl.sign s
      if c.toLower = letter ∧ s ≠ [] ∧ s.all Char.isDigit then
        some (if minus then -(digitsValue 10 s : Int) else digitsValue 10 s)
      else none

/-- A number without its sign. The exponent is one of `radix`. -/
def unsigned (base radix : Nat) (letter : Char) (s : Str) : Option ℚ :=
  let whole := s.takeWhile (isDigitOf base)
  let behind := s.dropWhile (isDigitOf base)
  let fraction := if behind.head? = some '.' then behind.tail.takeWhile (isDigitOf base) else []
  let rest := if behind.head? = some '.' then behind.tail.dropWhile (isDigitOf base) else behind
  if whole ++ fraction = [] then none
  else (exponent letter rest).map fun e =>
    digitsValue base (whole ++ fraction) / base ^ fraction.length * radix ^ e

/-- `parse (Float64, s)`, before the number is rounded. `none` is an error. -/
def parseFloat64 (s : Str) : Option Number :=
  let (minus, s) := Perl.sign s
  let word := s.map Char.toLower
  if word = "inf".toList ∨ word = "infinity".toList then some (.infinite minus)
  else if word = "nan".toList then some .nan
  else
    (if word.take 2 = "0x".toList then unsigned 16 2 'p' (s.drop 2) else unsigned 10 10 'e' s).map
      fun q => .finite (if minus then -q else q)

/-- `x < 0`, where what is too small for a `Float64` is zero. -/
def Number.isNegative : Number → Bool
  | finite q => q < -(1 / 2) ^ 1075
  | infinite minus => minus
  | nan => false

/-- **A text of digits is a number**, and not a negative one. -/
theorem parseFloat64_of_digits {s : Str} (hne : s ≠ []) (h : s.all Char.isDigit = true) :
    ∃ q : ℚ, 0 ≤ q ∧ parseFloat64 s = some (.finite q) := by
  obtain ⟨c, t, rfl⟩ := List.exists_cons_of_ne_nil hne
  have hdigits := List.all_eq_true.mp h
  have hc : c.isDigit = true := hdigits c List.mem_cons_self
  have hother : ∀ d, d.isDigit = false → c ≠ d := by
    rintro d hd rfl
    exact absurd (hd.symm.trans hc) (by simp)
  have hsign : Perl.sign (c :: t) = (false, c :: t) := by
    unfold Perl.sign
    split
    · next heq => exact absurd (List.cons.inj heq).1 (hother '-' (by decide))
    · next heq => exact absurd (List.cons.inj heq).1 (hother '+' (by decide))
    · rfl
  -- a digit has no case, so that the text is none of the names
  have hlower : ∀ d ∈ c :: t, d.toLower = d := by
    intro d hd
    have hdigit := hdigits d hd
    rw [Char.isDigit, Bool.and_eq_true, decide_eq_true_iff, decide_eq_true_iff] at hdigit
    refine dif_neg ?_
    rintro ⟨hle, -⟩
    have h9 : d.val ≤ 57 := hdigit.2
    have h65 : (65 : UInt32) ≤ d.val := hle
    exact absurd (UInt32.le_trans h65 h9) (by decide)
  have hword : (c :: t).map Char.toLower = c :: t := by
    rw [List.map_congr_left hlower]
    exact List.map_id' (c :: t)
  have hhex : (c :: t).take 2 ≠ "0x".toList := by
    intro heq
    have hx : 'x' ∈ c :: t := List.mem_of_mem_take (heq ▸ (by decide) : 'x' ∈ (c :: t).take 2)
    exact absurd (hdigits 'x' hx) (by decide)
  have hname : ∀ w : Str, w.head?.any (!Char.isDigit ·) = true → c :: t ≠ w := by
    rintro w hw rfl
    simp [hc] at hw
  have hall : ∀ d ∈ c :: t, isDigitOf 10 d = true := hdigits
  refine ⟨digitsValue 10 (c :: t), Nat.cast_nonneg _, ?_⟩
  unfold parseFloat64
  rw [hsign]
  simp only [hword]
  rw [if_neg (not_or.mpr ⟨hname _ (by decide), hname _ (by decide)⟩), if_neg (hname _ (by decide)),
    if_neg hhex, unsigned, List.takeWhile_eq_self_iff.mpr hall, List.dropWhile_eq_nil_iff.mpr hall]
  simp [exponent]

theorem Number.isNegative_finite {q : ℚ} (h : 0 ≤ q) : (Number.finite q).isNegative = false := by
  have hsmall : (0 : ℚ) ≤ (1 / 2) ^ 1075 := by positivity
  rw [isNegative, decide_eq_false_iff_not, not_lt]
  exact le_trans (neg_nonpos.mpr hsmall) h

end Julia

import Mathlib

/-!
# C strings, byte buffers and the integer conversions of `printf`

Nothing here is about a particular program. A C string is the list of its characters
without the terminating NUL (`Str`); a `char` array is the list of all its characters,
terminator and slack included (`Buf`). The two meet in `snprintf`, which writes a string
into an array, and `cstr`, which reads one back.

The reason to have the file at all is **separator-joined keys**: programs print integers
between fixed separator characters and then treat the text as an identity. That is sound
exactly because a printed integer never contains the separator (`not_mem_fmtInt`) and
because a text can be cut at its *last* separator in one way only (`append_sep_inj`).
-/

set_option autoImplicit false

namespace CText

/-- A C string, without its terminator. -/
abbrev Str := List Char

instance : LawfulBEq Str := inferInstance

/-- The contents of a `char` array, terminator and slack included. -/
abbrev Buf := List Char

/-- The terminator. -/
def nul : Char := Char.ofNat 0

/-! ## Integers as text -/

/-- `%u`, `%lu` and their fixed-width spellings. -/
def fmtNat (n : Nat) : Str := Nat.toDigits 10 n

/-- `%d` and `%lld`: a sign where there is one, then the digits of the magnitude. -/
def fmtInt (i : Int) : Str :=
  if i < 0 then '-' :: fmtNat i.natAbs else fmtNat i.natAbs

theorem fmtNat_inj {m n : Nat} (h : fmtNat m = fmtNat n) : m = n := by
  have hparsed := congrArg (fun ds => Nat.ofDigitChars 10 ds 0) h
  simpa [fmtNat, Nat.ofDigitChars_toDigits] using hparsed

theorem isDigit_of_mem_fmtNat {n : Nat} {c : Char} (h : c ∈ fmtNat n) : c.isDigit = true :=
  Nat.isDigit_of_mem_toDigits (by decide) (by decide) h

/-- A printed integer consists of digits and perhaps a sign. -/
theorem mem_fmtInt {i : Int} {c : Char} (h : c ∈ fmtInt i) : c = '-' ∨ c.isDigit = true := by
  unfold fmtInt at h
  split at h
  · rcases List.mem_cons.mp h with rfl | hd
    · exact Or.inl rfl
    · exact Or.inr (isDigit_of_mem_fmtNat hd)
  · exact Or.inr (isDigit_of_mem_fmtNat h)

theorem not_mem_fmtInt {i : Int} {c : Char} (hs : c ≠ '-') (hd : c.isDigit = false) :
    c ∉ fmtInt i := by
  intro h
  rcases mem_fmtInt h with rfl | hd'
  · exact hs rfl
  · rw [hd] at hd'; exact absurd hd' (by simp)

/-- Digits never start with a sign, so the sign is readable off the text. -/
theorem fmtNat_ne_minus {n : Nat} {ds : Str} : fmtNat n ≠ '-' :: ds := by
  intro h
  have hd : ('-' : Char).isDigit = true := isDigit_of_mem_fmtNat (by rw [h]; simp)
  exact absurd hd (by decide)

theorem fmtInt_inj {i j : Int} (h : fmtInt i = fmtInt j) : i = j := by
  unfold fmtInt at h
  split at h <;> split at h
  · have := fmtNat_inj (List.cons.inj h).2; omega
  · exact absurd h.symm fmtNat_ne_minus
  · exact absurd h fmtNat_ne_minus
  · have := fmtNat_inj h; omega

theorem length_fmtNat_le {n k : Nat} (hk : 0 < k) (h : n < 10 ^ k) : (fmtNat n).length ≤ k :=
  (Nat.length_toDigits_le_iff (by decide) hk).mpr h

theorem length_fmtInt_le {i : Int} {k : Nat} (hk : 0 < k) (h : i.natAbs < 10 ^ k) :
    (fmtInt i).length ≤ k + 1 := by
  have hlen := length_fmtNat_le hk h
  unfold fmtInt
  split
  · simpa using hlen
  · omega

theorem toInt32_inj {n n' : UInt32} (h : n.toInt32 = n'.toInt32) : n = n' := by
  rw [← UInt32.toUInt32_toInt32 n, h, UInt32.toUInt32_toInt32]

/-! ## Cutting a text at its last separator -/

/-- Two texts that agree agree on both sides of the last occurrence of `sep`. -/
theorem append_sep_inj {sep : Char} {a b x y : Str} (hx : sep ∉ x) (hy : sep ∉ y)
    (h : a ++ sep :: x = b ++ sep :: y) : a = b ∧ x = y := by
  rcases List.append_eq_append_iff.mp h with ⟨w, hb, hw⟩ | ⟨w, ha, hw⟩
  · cases w with
    | nil => exact ⟨by simpa using hb.symm, by simpa using hw⟩
    | cons c w =>
      -- the separator of the right-hand side would then lie inside `x`
      have hmem : sep ∈ x := by
        rw [(List.cons.inj hw).2]; simp
      exact absurd hmem hx
  · cases w with
    | nil => exact ⟨by simpa using ha, by simpa using hw.symm⟩
    | cons c w =>
      have hmem : sep ∈ y := by
        rw [(List.cons.inj hw).2]; simp
      exact absurd hmem hy

/-! ## Lines -/

/-- Nothing stands after the last separator of a text that ends with one. -/
theorem getLast?_splitOn_eq_nil_iff {sep : Char} {s : Str} :
    (s.splitOn sep).getLast? = some [] ↔ s = [] ∨ s.getLast? = some sep := by
  induction s with
  | nil => simp
  | cons c s ih =>
    by_cases hc : c = sep
    · rw [hc, ← List.nil_append (sep :: s), List.splitOn_append_cons_self, List.nil_append,
        List.getLast?_append_of_ne_nil _ (List.splitOn_ne_nil sep s), ih]
      cases s <;> simp
    · rw [List.splitOn_cons_eq_if_modifyHead, if_neg (by simpa using hc)]
      cases s with
      | nil => simp [hc]
      | cons d s =>
        -- the text goes on, so `c` goes to a piece that is not the last one, or not empty
        obtain ⟨w, ws, hsplit⟩ := List.exists_cons_of_ne_nil (List.splitOn_ne_nil sep (d :: s))
        rw [List.getLast?_cons_cons, hsplit, List.modifyHead_cons]
        rw [hsplit] at ih
        cases ws with
        | nil =>
          have hw : w = d :: s := by
            have hjoin := @List.intercalate_splitOn _ (d :: s) _ _ sep
            simpa [hsplit] using hjoin
          simpa [hw] using ih
        | cons w' ws => simpa using ih

/-! ## Buffers -/

/-- `memset (buf, 0, n)` on an `n` byte array. -/
def zeroed (n : Nat) : Buf := List.replicate n nul

/-- What `snprintf` leaves of `s`, read as a C string, in an array of `n` bytes. -/
def fit (n : Nat) (s : Str) : Str := s.take (n - 1)

/-- `snprintf (buf, sizeof buf, "%s", s)`: the part of `s` that fits, a terminator, and the
    rest of the array as it was. -/
def snprintf (buf : Buf) (s : Str) : Buf :=
  if buf.length = 0 then buf
  else fit buf.length s ++ nul :: buf.drop ((fit buf.length s).length + 1)

/-- The C string an array holds. -/
def cstr (buf : Buf) : Str := buf.takeWhile (· != nul)

theorem fit_of_length_lt {n : Nat} {s : Str} (h : s.length < n) : fit n s = s :=
  List.take_of_length_le (by omega)

theorem length_zeroed (n : Nat) : (zeroed n).length = n := List.length_replicate

@[simp] theorem cstr_zeroed (n : Nat) : cstr (zeroed n) = [] := by
  cases n <;> simp [cstr, zeroed, List.replicate_succ]

/-- A string written into a zeroed array reads back as the part of it that fits. -/
theorem cstr_snprintf {buf : Buf} {s : Str} (hpos : 0 < buf.length) (hs : nul ∉ s) :
    cstr (snprintf buf s) = fit buf.length s := by
  have hall : ∀ c ∈ fit buf.length s, (c != nul) = true := by
    intro c hc
    have hcs : c ∈ s := List.mem_of_mem_take hc
    simp only [bne_iff_ne, ne_eq]
    rintro rfl
    exact hs hcs
  unfold cstr snprintf
  rw [if_neg (by omega), List.takeWhile_append_of_pos hall]
  simp

end CText

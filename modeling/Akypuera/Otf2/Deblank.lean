import Akypuera.Otf2.Names

/-!
# `deblank`, in its buffer

The handlers use `deblank` as the function that drops the blanks of a text. In the program it works
in place, with two `int` indices into the one array that is read and written, and the length of the
text is measured again in every round.

What makes it right is that the writes stay behind the reads: the array is the characters that were
kept so far over the original one (`overlay`), so what is still to be read is as it was, the terminator
included. The indices are what limits it. `i` counts up to the length of the text, and a text of
`2 ^ 31` characters or more has positions that no `int` holds (`deblankBuf_exact_iff`).
-/

set_option autoImplicit false

namespace Akypuera
namespace Otf2

open CText

/-- Why there is no result: C leaves open what happens, or the rounds that were asked for are
    over. -/
inductive Halt where
  | undefined
  | outOfFuel
  deriving DecidableEq

/-- `strlen (buf)`, which looks for a terminator. -/
def strlen (buf : Buf) : Except Halt Nat :=
  if nul ∈ buf then .ok (cstr buf).length else .error .undefined

/-- `buf[i]`, read. -/
def load (buf : Buf) (i : Int) : Except Halt Char :=
  if i < 0 then .error .undefined
  else match buf[i.toNat]? with
    | some c => .ok c
    | none => .error .undefined

/-- `buf[i] = c`. -/
def store (buf : Buf) (i : Int) (c : Char) : Except Halt Buf :=
  if i < 0 then .error .undefined
  else if i.toNat < buf.length then .ok (buf.set i.toNat c) else .error .undefined

/-- `i++` and `i--` on an `int`. -/
def increment (i : Int) : Except Halt Int :=
  if i = 2 ^ 31 - 1 then .error .undefined else .ok (i + 1)

def decrement (i : Int) : Except Halt Int :=
  if i = -2 ^ 31 then .error .undefined else .ok (i - 1)

/-- The loop of `deblank`: the comparison with `strlen` is one of `size_t`. -/
def deblankLoop : Nat → Buf → Int → Int → Except Halt (Buf × Int)
  | 0, _, _, _ => .error .outOfFuel
  | fuel + 1, input, i, j => do
      let length ← strlen input
      if i % 2 ^ 64 < length then
        let c ← load input i
        let (input, j) ← (if c ≠ ' ' then do
            let input ← store input j c
            return (input, j)
          else do
            let j ← decrement j
            return (input, j) : Except Halt (Buf × Int))
        let i ← increment i
        let j ← increment j
        deblankLoop fuel input i j
      else return (input, j)

/-- `deblank (input)`, on the array that `input` points to. -/
def deblankBuf (fuel : Nat) (input : Buf) : Except Halt Buf := do
  let (output, j) ← deblankLoop fuel input 0 0
  store output j nul

/-! ## Writing over the front of an array -/

/-- `whole` with `kept` written over its front. -/
def overlay (whole kept : Buf) : Buf := kept ++ whole.drop kept.length

/-- Behind what was written it is as it was. -/
theorem getElem?_overlay {whole kept : Buf} {i : Nat} (h : kept.length ≤ i) :
    (overlay whole kept)[i]? = whole[i]? := by
  rw [overlay, List.getElem?_append_right h, List.getElem?_drop]
  congr 1
  omega

theorem length_overlay {whole kept : Buf} (h : kept.length ≤ whole.length) :
    (overlay whole kept).length = whole.length := by
  rw [overlay, List.length_append, List.length_drop]
  omega

/-- The next write goes right behind. -/
theorem set_overlay {whole kept : Buf} (c : Char) (h : kept.length < whole.length) :
    (overlay whole kept).set kept.length c = overlay whole (kept ++ [c]) := by
  rw [overlay, List.set_append_right _ _ (le_refl _), Nat.sub_self, List.drop_eq_getElem_cons h,
    List.set_cons_zero, overlay, List.length_append, List.length_singleton, List.append_assoc]
  rfl

theorem overlay_append {front kept : Str} (back : Buf) (h : kept.length ≤ front.length) :
    overlay (front ++ back) kept = overlay front kept ++ back := by
  rw [overlay, List.drop_append_of_le_length h, overlay, List.append_assoc]

/-- A text over a text that is longer: the terminator is where it was. -/
theorem strlen_overlay {s kept : Str} {slack : Buf} (hs : nul ∉ s) (hkept : nul ∉ kept)
    (hle : kept.length ≤ s.length) : strlen (overlay (s ++ nul :: slack) kept) = .ok s.length := by
  have hover : nul ∉ overlay s kept := by
    rw [overlay, List.mem_append, not_or]
    exact ⟨hkept, fun hmem => hs (List.mem_of_mem_drop hmem)⟩
  have hcstr : cstr (overlay s kept ++ nul :: slack) = overlay s kept := by
    rw [cstr, List.takeWhile_append_of_pos]
    · simp
    · intro c hc
      have hne : c ≠ nul := fun heq => hover (by rwa [← heq])
      simpa using hne
  rw [overlay_append _ hle, strlen, if_pos (by simp), hcstr, length_overlay hle]

/-! ## One round -/

theorem length_deblank_le (s : Str) : (deblank s).length ≤ s.length := List.length_filter_le _ s

theorem not_mem_deblank {s : Str} (h : nul ∉ s) : nul ∉ deblank s :=
  fun hmem => h (List.mem_of_mem_filter hmem)

theorem deblank_snoc (s : Str) (c : Char) :
    deblank (s ++ [c]) = if c ≠ ' ' then deblank s ++ [c] else deblank s := by
  by_cases hc : c = ' '
  · simp [deblank, List.filter_append, hc]
  · simp [deblank, List.filter_append, hc]

section
variable {s done rest : Str} {c : Char} {slack : Buf}

/-- The array before the round that reads at `done.length`. -/
abbrev during (s done : Str) (slack : Buf) : Buf := overlay (s ++ nul :: slack) (deblank done)

theorem strlen_during (hs : nul ∉ s) (hsplit : s = done ++ rest) :
    strlen (during s done slack) = .ok s.length := by
  have hdone : nul ∉ done := fun hmem => hs (by rw [hsplit]; exact List.mem_append_left _ hmem)
  refine strlen_overlay hs (not_mem_deblank hdone) ?_
  have hle := length_deblank_le done
  have hlen := congrArg List.length hsplit
  rw [List.length_append] at hlen
  omega

/-- What is read is the original character. -/
theorem load_during (hsplit : s = done ++ c :: rest) :
    load (during s done slack) done.length = .ok c := by
  rw [load, if_neg (by omega), Int.toNat_natCast, getElem?_overlay (length_deblank_le done), hsplit]
  simp

/-- What is kept is written behind what was kept before. -/
theorem store_during (c : Char) (h : (deblank done).length < s.length + 1) :
    store (during s done slack) (deblank done).length c =
      .ok (overlay (s ++ nul :: slack) (deblank done ++ [c])) := by
  have hlt : (deblank done).length < (s ++ nul :: slack).length := by
    rw [List.length_append, List.length_cons]
    omega
  rw [store, if_neg (by omega), Int.toNat_natCast, length_overlay (le_of_lt hlt), if_pos hlt,
    set_overlay c hlt]

/-- A round goes on to the next character, as long as there is an `int` for it. -/
theorem deblankLoop_round (hs : nul ∉ s) (hsplit : s = done ++ c :: rest) (fuel : Nat)
    (hint : done.length < 2 ^ 31 - 1) :
    deblankLoop (fuel + 1) (during s done slack) done.length (deblank done).length =
      deblankLoop fuel (during s (done ++ [c]) slack) (done ++ [c]).length
        (deblank (done ++ [c])).length := by
  have hlen : s.length = done.length + (rest.length + 1) := by
    rw [hsplit, List.length_append, List.length_cons]
  have hle := length_deblank_le done
  have hlt : (done.length : Int) % 2 ^ 64 < s.length := by omega
  have hi : increment (done.length : Int) = .ok ((done ++ [c]).length : Int) := by
    rw [increment, if_neg (by omega), List.length_append, List.length_singleton]
    rfl
  rw [deblankLoop, strlen_during hs hsplit]
  simp only [bind, Except.bind, if_pos hlt, load_during hsplit, hi]
  by_cases hc : c = ' '
  · -- `j` goes down and up again
    have hkept : deblank (done ++ [c]) = deblank done := by
      rw [deblank_snoc, if_neg (not_not.mpr hc)]
    have hj : decrement ((deblank done).length : Int) = .ok ((deblank done).length - 1) :=
      if_neg (by omega)
    have hj' : increment ((deblank done).length - 1 : Int) = .ok ((deblank done).length : Int) := by
      rw [increment, if_neg (by omega), Int.sub_add_cancel]
    simp [hc, hj, hj', pure, Except.pure, during, hc ▸ hkept]
  · have hkept : deblank (done ++ [c]) = deblank done ++ [c] := by
      rw [deblank_snoc, if_pos hc]
    have hj : increment ((deblank done).length : Int) = .ok ((deblank done).length + 1) :=
      if_neg (by omega)
    simp [hc, hj, store_during c (by omega : (deblank done).length < s.length + 1), pure,
      Except.pure, during, hkept]

/-- The last `int` is one too few. -/
theorem deblankLoop_overflow (hs : nul ∉ s) (hsplit : s = done ++ c :: rest) (fuel : Nat)
    (hint : done.length = 2 ^ 31 - 1) :
    deblankLoop (fuel + 1) (during s done slack) done.length (deblank done).length =
      .error .undefined := by
  have hlen : s.length = done.length + (rest.length + 1) := by
    rw [hsplit, List.length_append, List.length_cons]
  have hle := length_deblank_le done
  have hlt : (done.length : Int) % 2 ^ 64 < s.length := by omega
  have hi : increment (done.length : Int) = .error .undefined := if_pos (by omega)
  have hj : decrement ((deblank done).length : Int) = .ok ((deblank done).length - 1) :=
    if_neg (by omega)
  rw [deblankLoop, strlen_during hs hsplit]
  simp only [bind, Except.bind, if_pos hlt, load_during hsplit, hi]
  by_cases hc : c = ' '
  · simp [hc, hj, pure, Except.pure]
  · simp [hc, store_during c (by omega : (deblank done).length < s.length + 1), pure, Except.pure]

/-! ## All rounds -/

/-- With an `int` for every position the loop comes to the terminator. -/
theorem deblankLoop_eq (hs : nul ∉ s) (hlen : s.length < 2 ^ 31) {fuel : Nat} :
    ∀ {done rest : Str}, s = done ++ rest → rest.length < fuel →
      deblankLoop fuel (during s done slack) done.length (deblank done).length =
        .ok (during s s slack, (deblank s).length) := by
  induction fuel with
  | zero =>
    intro done rest _ hfuel
    exact absurd hfuel (Nat.not_lt_zero _)
  | succ fuel ih =>
    intro done rest hsplit hfuel
    cases rest with
    | nil =>
      rw [List.append_nil] at hsplit
      subst hsplit
      have hstop : ¬ (s.length : Int) % 2 ^ 64 < s.length := by omega
      rw [deblankLoop, strlen_during hs (List.append_nil s).symm]
      simp only [bind, Except.bind, if_neg hstop]
      rfl
    | cons c rest =>
      have hint : done.length < 2 ^ 31 - 1 := by
        rw [hsplit, List.length_append, List.length_cons] at hlen
        omega
      rw [deblankLoop_round hs hsplit fuel hint]
      exact ih (by rw [hsplit, List.append_assoc, List.singleton_append])
        (Nat.lt_of_succ_lt_succ hfuel)

/-- Without one it never does. -/
theorem deblankLoop_ne_ok (hs : nul ∉ s) (hlen : 2 ^ 31 ≤ s.length) {fuel : Nat} :
    ∀ {done rest : Str}, s = done ++ rest → done.length < 2 ^ 31 → ∀ out,
      deblankLoop fuel (during s done slack) done.length (deblank done).length ≠ .ok out := by
  induction fuel with
  | zero =>
    intro done rest _ _ out
    exact nofun
  | succ fuel ih =>
    intro done rest hsplit hdone out
    cases rest with
    | nil =>
      rw [hsplit, List.append_nil] at hlen
      omega
    | cons c rest =>
      by_cases hint : done.length < 2 ^ 31 - 1
      · rw [deblankLoop_round hs hsplit fuel hint]
        have hsplit' : s = (done ++ [c]) ++ rest := by
          rw [hsplit, List.append_assoc, List.singleton_append]
        apply ih hsplit'
        rw [List.length_append, List.length_singleton]
        omega
      · rw [deblankLoop_overflow hs hsplit fuel (by omega)]
        exact nofun

end

/-- What is left in the array: the text without its blanks and a terminator, over what was there. -/
def deblanked (s : Str) (slack : Buf) : Buf :=
  deblank s ++ nul :: ((s ++ [nul]).drop ((deblank s).length + 1) ++ slack)

theorem deblankBuf_eq {s : Str} {slack : Buf} {fuel : Nat} (hs : nul ∉ s)
    (hlen : s.length < 2 ^ 31) (hfuel : s.length < fuel) :
    deblankBuf fuel (s ++ nul :: slack) = .ok (deblanked s slack) := by
  have hle := length_deblank_le s
  have hloop := @deblankLoop_eq s slack hs hlen fuel [] s rfl hfuel
  have hstore := @store_during s s slack nul (by omega)
  have hstart : during s [] slack = s ++ nul :: slack := rfl
  rw [hstart] at hloop
  have hend : overlay (s ++ nul :: slack) (deblank s ++ [nul]) = deblanked s slack := by
    have hlen' : (deblank s ++ [nul]).length ≤ (s ++ [nul]).length := by
      rw [List.length_append, List.length_append]
      exact Nat.add_le_add_right hle 1
    rw [← List.singleton_append (l := slack), ← List.append_assoc, overlay_append _ hlen', overlay,
      List.length_append, List.length_singleton, deblanked, List.append_assoc, List.append_assoc,
      List.singleton_append]
  rw [deblankBuf]
  change deblankLoop fuel (s ++ nul :: slack) 0 0 = _ at hloop
  simp only [hloop, bind, Except.bind, hstore, hend]

/-- `deblank` does what it is for on the text `s`, whatever stands behind it in memory: it ends, the
    array has its size and, behind the text, its contents; the text in it is `s` without its blanks;
    and a second call gives that text again. -/
def Deblanks (s : Str) : Prop :=
  ∀ slack, ∃ out, (∀ fuel, s.length < fuel → deblankBuf fuel (s ++ nul :: slack) = .ok out) ∧
    out.length = s.length + 1 + slack.length ∧ out.drop (s.length + 1) = slack ∧
    cstr out = s.filter (· ≠ ' ') ∧
    ∃ again, (∀ fuel, s.length < fuel → deblankBuf fuel out = .ok again) ∧ cstr again = cstr out

theorem cstr_deblanked {s : Str} (hs : nul ∉ s) (slack : Buf) :
    cstr (deblanked s slack) = deblank s := by
  rw [deblanked, cstr, List.takeWhile_append_of_pos]
  · simp
  · intro c hc
    have hne : c ≠ nul := fun heq => not_mem_deblank hs (by rwa [← heq])
    simpa using hne

theorem deblanks_of_lt {s : Str} (hs : nul ∉ s) (hlen : s.length < 2 ^ 31) : Deblanks s := by
  intro slack
  have hle := length_deblank_le s
  have hsize : (deblank s ++ nul :: (s ++ [nul]).drop ((deblank s).length + 1)).length =
      s.length + 1 := by
    rw [List.length_append, List.length_cons, List.length_drop, List.length_append,
      List.length_singleton]
    omega
  have hout : deblanked s slack =
      (deblank s ++ nul :: (s ++ [nul]).drop ((deblank s).length + 1)) ++ slack := by
    rw [deblanked, List.append_assoc, List.cons_append]
  refine ⟨deblanked s slack, fun fuel hfuel => deblankBuf_eq hs hlen hfuel, ?_, ?_,
    cstr_deblanked hs slack,
    deblanked (deblank s) ((s ++ [nul]).drop ((deblank s).length + 1) ++ slack), ?_, ?_⟩
  · rw [hout, List.length_append, hsize]
  · rw [hout, ← hsize, List.drop_left]
  · intro fuel hfuel
    exact deblankBuf_eq (not_mem_deblank hs) (hle.trans_lt hlen) (hle.trans_lt hfuel)
  · rw [cstr_deblanked (not_mem_deblank hs), cstr_deblanked hs, deblank_deblank]

theorem not_deblanks_of_le {s : Str} (hs : nul ∉ s) (hlen : 2 ^ 31 ≤ s.length) : ¬ Deblanks s := by
  intro h
  obtain ⟨out, hout, -⟩ := h []
  have hrun := hout (s.length + 1) (Nat.lt_succ_self _)
  rw [deblankBuf] at hrun
  cases hloop : deblankLoop (s.length + 1) (s ++ [nul]) 0 0 with
  | error => simp [hloop, bind, Except.bind] at hrun
  | ok res =>
    exact @deblankLoop_ne_ok s [] hs hlen (s.length + 1) [] s rfl (by norm_num) res hloop

/-- **`deblank` is exact where every position of the text is an `int`**, and nowhere else. -/
theorem deblanks_iff {s : Str} (hs : nul ∉ s) : Deblanks s ↔ s.length < 2 ^ 31 := by
  constructor
  · intro h
    by_contra hlen
    exact not_deblanks_of_le hs (Nat.le_of_not_lt hlen) h
  · exact deblanks_of_lt hs

theorem deblanks_iff_node : Deblanks " node 1".toList :=
  (deblanks_iff (by decide)).mpr (by decide)

/-- A text that is too long, and has no blanks at all. -/
def longName : Str := List.replicate (2 ^ 31) 'n'

theorem longName_not_deblanked : nul ∉ longName ∧ ¬ Deblanks longName := by
  have hs : nul ∉ longName := fun hmem => absurd (List.eq_of_mem_replicate hmem) (by decide)
  exact ⟨hs, not_deblanks_of_le hs (le_of_eq List.length_replicate.symm)⟩

end Otf2
end Akypuera

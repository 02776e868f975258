import Akypuera.Lib.CText

/-!
# The words of a line, and `cut`

A line that goes through `echo` without quotes is its words with one blank between them; `cut` takes
fields out of that. On a line with two words or more the fields are the words (`cut_joined`). **A line
without a blank has no fields for `cut`**, which then gives the whole line, whatever field it is asked
for.
-/

set_option autoImplicit false

namespace Words

open CText

def isBlank (c : Char) : Bool := c = ' ' || c = '\t'

/-- The words of a line. -/
def words : Str → List Str
  | [] => []
  | c :: s =>
      if isBlank c then words s
      else if s.head?.any (!isBlank ·) then (words s).modifyHead (c :: ·)
      else [c] :: words s

/-- `echo $line`. -/
def joined (ws : List Str) : Str := [' '].intercalate ws

/-- What stands between blanks. -/
def atBlanks (s : Str) : List Str := (s.splitOn ' ').filter (· ≠ [])

/-- `cut -d" " -f<first>-<last>`. -/
def cut (first last : Nat) (s : Str) : Str :=
  if ' ' ∈ s then joined (((s.splitOn ' ').drop (first - 1)).take (last + 1 - first)) else s

theorem words_ne_nil {s : Str} (h : s.head?.any (!isBlank ·) = true) : words s ≠ [] := by
  cases s with
  | nil => exact absurd h (by simp)
  | cons c s =>
    have hc : isBlank c = false := by simpa using h
    rw [words, hc, if_neg (by simp)]
    split
    · next hs =>
      obtain ⟨w, ws, hws⟩ := List.exists_cons_of_ne_nil (words_ne_nil hs)
      rw [hws, List.modifyHead_cons]
      exact List.cons_ne_nil _ _
    · exact List.cons_ne_nil _ _

/-- A word is not empty and has no blanks. -/
theorem mem_words {s w : Str} (h : w ∈ words s) : w ≠ [] ∧ ∀ c ∈ w, isBlank c = false := by
  induction s generalizing w with
  | nil => exact absurd h List.not_mem_nil
  | cons c s ih =>
    rw [words] at h
    cases hc : isBlank c with
    | true =>
      rw [hc, if_pos rfl] at h
      exact ih h
    | false =>
      rw [hc, if_neg (by simp)] at h
      split at h
      · next hs =>
        obtain ⟨v, vs, hvs⟩ := List.exists_cons_of_ne_nil (words_ne_nil hs)
        rw [hvs] at h ih
        rcases List.mem_cons.mp h with rfl | h
        · refine ⟨List.cons_ne_nil _ _, ?_⟩
          intro d hd
          rcases List.mem_cons.mp hd with rfl | hd
          · exact hc
          · exact (ih List.mem_cons_self).2 d hd
        · exact ih (List.mem_cons_of_mem _ h)
      · rcases List.mem_cons.mp h with rfl | h
        · refine ⟨List.cons_ne_nil _ _, ?_⟩
          intro d hd
          rw [List.mem_singleton.mp hd]
          exact hc
        · exact ih h

theorem blank_not_mem {s w : Str} (h : w ∈ words s) : ' ' ∉ w := by
  intro hmem
  exact absurd ((mem_words h).2 ' ' hmem) (by decide)

/-- Words are told apart by a blank if there are two. -/
theorem blank_mem_joined (w w' : Str) (ws : List Str) : ' ' ∈ joined (w :: w' :: ws) := by
  rw [joined, List.intercalate_cons_cons]
  simp

/-- The fields of a line are its words. -/
theorem cut_joined {first last : Nat} {ws : List Str} (hws : ∀ w ∈ ws, ' ' ∉ w)
    (hlen : 2 ≤ ws.length) :
    cut first last (joined ws) = joined ((ws.drop (first - 1)).take (last + 1 - first)) := by
  obtain ⟨w, w', ws, rfl⟩ : ∃ w w' ws', ws = w :: w' :: ws' := by
    match ws, hlen with
    | w :: w' :: ws, _ => exact ⟨w, w', ws, rfl⟩
  have hsplit : (joined (w :: w' :: ws)).splitOn ' ' = w :: w' :: ws :=
    List.splitOn_intercalate ' ' hws (List.cons_ne_nil _ _)
  rw [cut, if_pos (blank_mem_joined w w' ws), hsplit]

/-- One word, or none, is every field. -/
theorem cut_joined_of_length_le {first last : Nat} {ws : List Str} (hws : ∀ w ∈ ws, ' ' ∉ w)
    (hlen : ws.length ≤ 1) : cut first last (joined ws) = joined ws := by
  refine if_neg ?_
  match ws, hlen with
  | [], _ => exact List.not_mem_nil
  | [w], _ =>
    rw [joined, List.intercalate_singleton]
    exact hws w List.mem_cons_self

/-- One field. -/
theorem cut_joined_one {n : Nat} {ws : List Str} (hws : ∀ w ∈ ws, ' ' ∉ w) (hlen : 2 ≤ ws.length) :
    cut (n + 1) (n + 1) (joined ws) = ws.getD n [] := by
  rw [cut_joined hws hlen, Nat.add_sub_cancel, Nat.add_sub_cancel_left]
  cases hdrop : ws.drop n with
  | nil =>
    rw [List.getD_eq_default _ _ (List.drop_eq_nil_iff.mp hdrop)]
    rfl
  | cons w rest =>
    have hw : ws[n]? = some w := by
      rw [← List.head?_drop, hdrop, List.head?_cons]
    rw [List.take_succ_cons, List.take_zero, joined, List.intercalate_singleton,
      List.getD_eq_getElem?_getD, hw, Option.getD_some]

/-- More words make a longer text, also without the quotes in it. -/
theorem joined_append {ws ws' : List Str} (hne : ws ≠ []) (hne' : ws' ≠ []) :
    joined (ws ++ ws') = joined ws ++ ' ' :: joined ws' := by
  induction ws with
  | nil => exact absurd rfl hne
  | cons w ws ih =>
    cases ws with
    | nil =>
      rw [List.singleton_append, joined, List.intercalate_cons_of_ne_nil hne', joined, joined,
        List.intercalate_singleton]
      simp
    | cons v ws =>
      rw [List.cons_append, joined, List.intercalate_cons_of_ne_nil (by simp), joined,
        List.intercalate_cons_of_ne_nil (by simp)]
      have htail := ih (List.cons_ne_nil v ws)
      rw [joined, joined] at htail
      rw [htail]
      simp

theorem atBlanks_append (s t : Str) : atBlanks (s ++ ' ' :: t) = atBlanks s ++ atBlanks t := by
  rw [atBlanks, List.splitOn_append_cons_self, List.filter_append]
  rfl

/-- **Texts with blanks between them are read one by one.** -/
theorem atBlanks_joined (ws : List Str) : atBlanks (joined ws) = ws.flatMap atBlanks := by
  induction ws with
  | nil => rfl
  | cons w ws ih =>
    cases ws with
    | nil => simp [joined]
    | cons v ws =>
      rw [joined, List.intercalate_cons_cons, List.append_assoc, List.singleton_append,
        atBlanks_append, List.flatMap_cons, ← ih]
      rfl

/-- A text without a blank is all that is read of it. -/
theorem atBlanks_of_not_mem {s : Str} (hne : s ≠ []) (h : ' ' ∉ s) : atBlanks s = [s] := by
  rw [atBlanks, List.splitOn_eq_singleton h]
  simp [hne]

end Words

import Akypuera.Tau.Threads

/-!
# The last times of the nodes

`rank_last_time` holds one time for each node, and the callbacks both print it and, for
`DestroyContainer`, read it back. `Times` ties it to what was written so far: **a node's entry is
not before anything written about it, and not after now**. So whatever is printed from the entry, or
at a time from now on, is in order.
-/

set_option autoImplicit false

namespace Akypuera
namespace Tau

open CText Search Keys

/-- The container an event is about: for a link, the end the event is written at. -/
def Paje.container : Paje → Str
  | createContainer _ aliasName _ _ _ => aliasName
  | destroyContainer _ _ name => name
  | pushState _ container _ _ => container
  | popState _ container _ => container
  | startLink _ _ _ source _ _ _ _ => source
  | endLink _ _ _ dest _ _ => dest

def Paje.time : Paje → ℚ
  | createContainer time _ _ _ _ => time
  | destroyContainer time _ _ => time
  | pushState time _ _ _ => time
  | popState time _ _ => time
  | startLink time _ _ _ _ _ _ _ => time
  | endLink time _ _ _ _ _ => time

/-- What is written about a node. -/
def about (n : UInt32) (ps : List Paje) : List Paje :=
  ps.filter fun p => p.container = mpiProcess n

@[simp] theorem about_append (n : UInt32) (ps ps' : List Paje) :
    about n (ps ++ ps') = about n ps ++ about n ps' := List.filter_append ..

/-- **Distinct nodes have distinct containers.** -/
theorem mpiProcess_inj {n n' : UInt32} (h : mpiProcess n = mpiProcess n') : n = n' :=
  fit_fmtInt32_inj (p := "rank".toList) (by decide) h

theorem about_of_container {n n' : UInt32} {p : Paje} (h : p.container = mpiProcess n) :
    about n' [p] = if n' = n then [p] else [] := by
  by_cases hn : n' = n
  · subst hn; simp [about, h]
  · have hne : p.container ≠ mpiProcess n' := fun heq => hn (mpiProcess_inj (heq.symm.trans h))
    simp [about, hne, hn]

/-- The time after a callback. -/
def nowAfter (r : Resolution) (now : ℚ) (c : Callback) : ℚ :=
  c.time.elim now (timeToSeconds r)

/-- Times in order, one callback on. -/
theorem ordered_cons {r : Resolution} {now : ℚ} {c : Callback} {cs : List Callback}
    (h : (now :: secondsFrom r (c :: cs)).Pairwise (· ≤ ·)) :
    (∀ time ∈ c.time, now ≤ timeToSeconds r time) ∧
      (nowAfter r now c :: secondsFrom (c.resolution r) cs).Pairwise (· ≤ ·) := by
  rw [secondsFrom] at h
  rw [nowAfter]
  cases htime : c.time with
  | none =>
    rw [htime] at h
    exact ⟨nofun, h⟩
  | some time =>
    rw [htime] at h
    obtain ⟨hnow, hrest⟩ := List.pairwise_cons.mp h
    refine ⟨fun time' htime' => ?_, hrest⟩
    cases htime'
    exact hnow _ List.mem_cons_self

/-- A node that was defined by some callbacks. -/
def Defined (n : UInt32) (cs : List Callback) : Prop := ∃ tok name, Callback.defThread n tok name ∈ cs

theorem Defined.append {n : UInt32} {cs : List Callback} (h : Defined n cs) (cs' : List Callback) :
    Defined n (cs ++ cs') := by
  obtain ⟨tok, name, hmem⟩ := h
  exact ⟨tok, name, List.mem_append_left _ hmem⟩

/-- The entries of `rank_last_time` after `before` wrote `outs`, at the time `now`. -/
structure Times (before : List Callback) (outs : List Paje) (now : ℚ) (cells : Cells ℚ) :
    Prop where
  known : ∀ n, Defined n before → ∃ v, cells.read n.toNat = some v ∧ 0 ≤ v ∧ v ≤ now ∧
    ∀ p ∈ about n outs, p.time ≤ v
  fresh : ∀ n, ¬ Defined n before → about n outs = []
  sorted : ∀ n, ((about n outs).map Paje.time).Pairwise (· ≤ ·)

variable {before : List Callback} {outs : List Paje} {now : ℚ} {cells : Cells ℚ}

theorem Times.init : Times [] [] 0 [] where
  known n h := by obtain ⟨_, _, hmem⟩ := h; exact absurd hmem (by simp)
  fresh _ _ := rfl
  sorted _ := List.Pairwise.nil

theorem Times.later (h : Times before outs now cells) {now' : ℚ} (hle : now ≤ now') :
    Times before outs now' cells where
  known n hn := by
    obtain ⟨v, hv, hpos, hnow, hps⟩ := h.known n hn
    exact ⟨v, hv, hpos, hnow.trans hle, hps⟩
  fresh := h.fresh
  sorted := h.sorted

/-- A callback that defines nothing and writes nothing. -/
theorem Times.skip (h : Times before outs now cells) {c : Callback}
    (hc : ∀ n tok name, c ≠ .defThread n tok name) : Times (before ++ [c]) outs now cells := by
  have hdef : ∀ n, Defined n (before ++ [c]) ↔ Defined n before := by
    refine fun n => ⟨fun ⟨tok, name, hmem⟩ => ⟨tok, name, ?_⟩, fun h => h.append _⟩
    rcases List.mem_append.mp hmem with hmem | hmem
    · exact hmem
    · exact absurd (List.mem_singleton.mp hmem).symm (hc n tok name)
  exact ⟨fun n hn => h.known n ((hdef n).mp hn), fun n hn => h.fresh n fun hb => hn ((hdef n).mpr hb),
    h.sorted⟩

/-- An entry is set to a time from now on. -/
theorem Times.set (h : Times before outs now cells) {i : Nat} (hi : i < cells.length) {s : ℚ}
    (hs : now ≤ s) (hnow : 0 ≤ now) : Times before outs s (List.set cells i (some s)) where
  known n hn := by
    obtain ⟨v, hv, hpos, hle, hps⟩ := h.known n hn
    by_cases heq : n.toNat = i
    · exact ⟨s, by rw [heq]; exact Cells.read_set_self s hi, hnow.trans hs, le_refl s,
        fun p hp => (hps p hp).trans (hle.trans hs)⟩
    · exact ⟨v, by rw [Cells.read_set_ne s heq]; exact hv, hpos, hle.trans hs, hps⟩
  fresh := h.fresh
  sorted := h.sorted

/-- An event is written at the time of its node's entry. -/
theorem Times.emit (h : Times before outs now cells) {n : UInt32} (hn : Defined n before)
    {p : Paje} (hp : p.container = mpiProcess n) (htime : cells.read n.toNat = some p.time) :
    Times before (outs ++ [p]) now cells where
  known n' hn' := by
    obtain ⟨v, hv, hpos, hle, hps⟩ := h.known n' hn'
    refine ⟨v, hv, hpos, hle, ?_⟩
    intro p' hp'
    rw [about_append, about_of_container hp] at hp'
    rcases List.mem_append.mp hp' with hp' | hp'
    · exact hps p' hp'
    · split at hp'
      · next heq =>
        rw [List.mem_singleton.mp hp']
        rw [heq, htime] at hv
        exact le_of_eq (Option.some.inj hv)
      · exact absurd hp' (by simp)
  fresh n' hn' := by
    have hne : n' ≠ n := fun heq => hn' (heq ▸ hn)
    rw [about_append, h.fresh n' hn', about_of_container hp, if_neg hne]
    rfl
  sorted n' := by
    rw [about_append, about_of_container hp]
    by_cases heq : n' = n
    · subst heq
      obtain ⟨v, hv, -, -, hps⟩ := h.known n' hn
      rw [htime] at hv
      rw [if_pos rfl, List.map_append, List.pairwise_append]
      refine ⟨h.sorted n', List.pairwise_singleton _ _, ?_⟩
      intro a ha b hb
      obtain ⟨p', hp', rfl⟩ := List.mem_map.mp ha
      rw [List.mem_singleton.mp hb, Option.some.inj hv]
      exact hps p' hp'
    · rw [if_neg heq, List.append_nil]
      exact h.sorted n'

/-- A node is defined: its container is created, and its entry is 0. -/
theorem Times.define (h : Times before outs now cells) {n tok : UInt32} {name : Str}
    (hnew : ¬ Defined n before) (hnow : 0 ≤ now) {cells' : Cells ℚ} (hn : n.toNat < cells'.length)
    (hkeep : ∀ n', Defined n' before → cells'.read n'.toNat = cells.read n'.toNat) :
    Times (before ++ [.defThread n tok name])
      (outs ++ [.createContainer 0 (mpiProcess n) sProcess sRoot (mpiProcess n)]) now
      (List.set cells' n.toNat (some 0)) := by
  have habout : ∀ n', about n'
      [Paje.createContainer 0 (mpiProcess n) sProcess sRoot (mpiProcess n)] =
        if n' = n then [.createContainer 0 (mpiProcess n) sProcess sRoot (mpiProcess n)] else [] :=
    fun n' => about_of_container rfl
  refine ⟨?_, ?_, ?_⟩
  · intro n' hn'
    by_cases heq : n' = n
    · subst heq
      refine ⟨0, Cells.read_set_self 0 hn, le_refl 0, hnow, ?_⟩
      intro p hp
      rw [about_append, h.fresh n' hnew, habout, if_pos rfl] at hp
      rw [List.mem_singleton.mp hp]
      exact le_refl 0
    · have hold : Defined n' before := by
        obtain ⟨tok', name', hmem⟩ := hn'
        rcases List.mem_append.mp hmem with hmem | hmem
        · exact ⟨tok', name', hmem⟩
        · cases List.mem_singleton.mp hmem
          exact absurd rfl heq
      have hne : n'.toNat ≠ n.toNat := fun hn => heq (UInt32.toNat_inj.mp hn)
      rw [Cells.read_set_ne 0 hne, hkeep n' hold, about_append, habout, if_neg heq, List.append_nil]
      exact h.known n' hold
  · intro n' hn'
    have heq : n' ≠ n := by
      rintro rfl
      exact hn' ⟨tok, name, by simp⟩
    rw [about_append, habout, if_neg heq, List.append_nil]
    exact h.fresh n' fun hold => hn' (hold.append _)
  · intro n'
    rw [about_append, habout]
    by_cases heq : n' = n
    · subst heq
      rw [h.fresh n' hnew, if_pos rfl]
      exact List.pairwise_singleton _ _
    · rw [if_neg heq, List.append_nil]
      exact h.sorted n'

end Tau
end Akypuera

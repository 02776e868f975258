import Mathlib
import Akypuera.Lib.Bounded
import Akypuera.Lib.Related

/-!
# Arrows drawn by keys

A drawing names the two ends of an arrow by a common key: `drawn` joins every end with the last
start of its key. When the keys come out of FIFO queues, distinct and none missing, **the drawing
of one queue is its starts and its ends, zipped** (`drawn_queue`); so two drawings whose queues have
the same starts and the same ends are the same drawing, in whatever order the queues take turns
(`drawn_perm`).
-/

set_option autoImplicit false

namespace Fifo

variable {κ ν τ α β γ δ : Type}

/-- An end of an arrow: its key, and what it is. -/
inductive End (ν α β : Type) where
  | start (key : ν) (a : α)
  | finish (key : ν) (b : β)
  deriving DecidableEq

/-- The same end, of something else. -/
def End.map (f : α → γ) (g : β → δ) : End ν α β → End ν γ δ
  | start key a => .start key (f a)
  | finish key b => .finish key (g b)

section
variable [DecidableEq ν]

/-- The arrows, given the starts so far, the last one first. -/
def drawn : List (ν × α) → List (End ν α β) → List (α × β)
  | _, [] => []
  | starts, .start key a :: l => drawn ((key, a) :: starts) l
  | starts, .finish key b :: l =>
      ((starts.find? fun s => s.1 = key).map fun s => (s.2, b)).toList ++ drawn starts l

theorem drawn_map (f : α → γ) (g : β → δ) (starts : List (ν × α)) (l : List (End ν α β)) :
    drawn (starts.map fun s => (s.1, f s.2)) (l.map (End.map f g)) =
      (drawn starts l).map fun p => (f p.1, g p.2) := by
  induction l generalizing starts with
  | nil => rfl
  | cons x l ih =>
    cases x with
    | start key a => exact ih ((key, a) :: starts)
    | finish key b =>
      have hfind : (starts.map fun s => (s.1, f s.2)).find? (fun s => s.1 = key) =
          (starts.find? fun s => s.1 = key).map fun s => (s.1, f s.2) := List.find?_map
      simp only [List.map_cons, End.map, drawn, List.map_append, ih, hfind]
      cases starts.find? fun s => s.1 = key <;> rfl

/-! ## One queue -/

/-- The end that an operation with a tag makes; a pop that came up empty makes none. -/
def Entry.end_ : τ × Entry κ ν → Option (End ν (τ × κ) (τ × κ))
  | (c, .push k v) => some (.start v (c, k))
  | (c, .pop k ans) => ans.map fun v => .finish v (c, k)

/-- The ends that operations make. -/
def ends (l : List (τ × Entry κ ν)) : List (End ν (τ × κ) (τ × κ)) := l.filterMap Entry.end_

omit [DecidableEq ν] in
theorem ends_append (l l' : List (τ × Entry κ ν)) : ends (l ++ l') = ends l ++ ends l' :=
  List.filterMap_append

variable [DecidableEq κ]

/-- **The arrows of a queue**, when its keys are handed out first in, first out: its starts and its
    ends, zipped. `pending` is what the queues hold, with tags. -/
theorem drawn_from {l : List (τ × Entry κ ν)} {starts : List (ν × (τ × κ))}
    {pending : κ → List (τ × ν)} (hserves : Serves (fun k => (pending k).map Prod.snd) (l.map Prod.snd))
    (hsome : ∀ c k ans, (c, Entry.pop k ans) ∈ l → ans.isSome = true)
    (hfound : ∀ k, ∀ p ∈ pending k, starts.find? (fun s => s.1 = p.2) = some (p.2, (p.1, k)))
    (hnodup : (allPushed (l.map Prod.snd)).Nodup)
    (hfresh : ∀ k, ∀ p ∈ pending k, p.2 ∉ allPushed (l.map Prod.snd)) (k : κ) :
    (drawn starts (ends l)).filter (fun p => p.1.2 = k) =
      ((pending k ++ pushes k l).map fun p => (p.1, k)).zip ((pops k l).map fun p => (p.1, k)) := by
  induction l generalizing starts pending with
  | nil => simp [ends, drawn, pops]
  | cons x l ih =>
    obtain ⟨c, entry⟩ := x
    obtain ⟨hok, hrest⟩ := hserves
    cases entry with
    | push k₀ v =>
      have hnodup : (v :: allPushed (l.map Prod.snd)).Nodup := hnodup
      obtain ⟨hv, htail⟩ := List.nodup_cons.mp hnodup
      have hih := @ih ((v, (c, k₀)) :: starts) (Function.update pending k₀ (pending k₀ ++ [(c, v)]))
        ?_ ?_ ?_ htail ?_
      · show (drawn ((v, (c, k₀)) :: starts) (ends l)).filter _ = _
        rw [hih]
        by_cases hk : k₀ = k
        · subst hk
          simp [pushes, pops]
        · simp [pushes, pops, hk, Function.update_of_ne (Ne.symm hk)]
      · convert hrest using 1
        funext k'
        by_cases hk : k' = k₀
        · subst hk
          simp [Entry.apply]
        · simp [Entry.apply, Function.update_of_ne hk]
      · exact fun c' k' ans h => hsome c' k' ans (List.mem_cons_of_mem _ h)
      · intro k' p hp
        by_cases hk : k' = k₀
        · subst hk
          rw [Function.update_self] at hp
          rcases List.mem_append.mp hp with hp | hp
          · have hne : v ≠ p.2 := fun heq => hfresh k' p hp (heq ▸ List.mem_cons_self)
            rw [List.find?_cons_of_neg (by simpa using hne)]
            exact hfound k' p hp
          · rw [List.mem_singleton.mp hp, List.find?_cons_of_pos (by simp)]
        · rw [Function.update_of_ne hk] at hp
          have hne : v ≠ p.2 := fun heq => hfresh k' p hp (heq ▸ List.mem_cons_self)
          rw [List.find?_cons_of_neg (by simpa using hne)]
          exact hfound k' p hp
      · intro k' p hp hmem
        by_cases hk : k' = k₀
        · subst hk
          rw [Function.update_self] at hp
          rcases List.mem_append.mp hp with hp | hp
          · exact hfresh k' p hp (List.mem_cons_of_mem _ hmem)
          · rw [List.mem_singleton.mp hp] at hmem
            exact hv hmem
        · rw [Function.update_of_ne hk] at hp
          exact hfresh k' p hp (List.mem_cons_of_mem _ hmem)
    | pop k₀ ans =>
      obtain ⟨v, rfl⟩ := Option.isSome_iff_exists.mp (hsome c k₀ ans List.mem_cons_self)
      -- the answer is the oldest in the queue
      have hhead : some v = ((pending k₀).map Prod.snd).head? := hok
      obtain ⟨d, queue, hqueue⟩ : ∃ d queue, pending k₀ = (d, v) :: queue := by
        cases hp : pending k₀ with
        | nil => rw [hp] at hhead; cases hhead
        | cons p queue =>
          rw [hp] at hhead
          obtain ⟨d, w⟩ := p
          exact ⟨d, queue, by rw [Option.some.inj hhead]⟩
      have hfind := hfound k₀ (d, v) (by rw [hqueue]; exact List.mem_cons_self)
      have hsub : ∀ k', ∀ p ∈ Function.update pending k₀ queue k', p ∈ pending k' := by
        intro k' p hp
        by_cases hk : k' = k₀
        · subst hk
          rw [Function.update_self] at hp
          rw [hqueue]
          exact List.mem_cons_of_mem _ hp
        · rwa [Function.update_of_ne hk] at hp
      have hih := @ih starts (Function.update pending k₀ queue) ?_
        (fun c' k' ans h => hsome c' k' ans (List.mem_cons_of_mem _ h))
        (fun k' p hp => hfound k' p (hsub k' p hp)) hnodup
        fun k' p hp => hfresh k' p (hsub k' p hp)
      · show ((((starts.find? _).map _).toList ++ drawn starts (ends l)).filter _) = _
        rw [hfind, List.filter_append, hih]
        by_cases hk : k₀ = k
        · subst hk
          simp [pushes, pops, hqueue]
        · simp [pushes, pops, hk, Function.update_of_ne (Ne.symm hk)]
      · convert hrest using 1
        funext k'
        by_cases hk : k' = k₀
        · subst hk
          simp [Entry.apply, hqueue]
        · simp [Entry.apply, Function.update_of_ne hk]

/-- A log of queues that start empty, whose keys are distinct and none missing. -/
structure Complete (l : List (τ × Entry κ ν)) : Prop where
  serves : Serves Queues.empty (l.map Prod.snd)
  some : ∀ c k ans, (c, Entry.pop k ans) ∈ l → ans.isSome = true
  nodup : (allPushed (l.map Prod.snd)).Nodup

/-- **The arrows of one queue** are its starts and its ends, zipped. -/
theorem Complete.drawn_queue {l : List (τ × Entry κ ν)} (h : Complete l) (k : κ) :
    (drawn [] (ends l)).filter (fun p => p.1.2 = k) =
      ((pushes k l).map fun p => (p.1, k)).zip ((pops k l).map fun p => (p.1, k)) :=
  @drawn_from κ ν τ _ _ l [] (fun _ => []) h.serves h.some
    (fun _ _ hp => absurd hp List.not_mem_nil) h.nodup
    (fun _ _ hp => absurd hp List.not_mem_nil) k

/-- The tags in the queue of `k`, as far as they are asked for. -/
def joined (k : κ) (l : List (τ × Req κ)) : List (τ × τ) := (putTags k l).zip (takeTags k l)

omit [DecidableEq ν] in
theorem zip_tags (k : κ) (l : List (τ × Entry κ ν)) :
    ((pushes k l).map fun p => (p.1, k)).zip ((pops k l).map fun p => (p.1, k)) =
      (joined k (l.map fun x => (x.1, x.2.req))).map fun p => ((p.1, k), (p.2, k)) := by
  rw [joined, ← map_fst_pushes, ← map_fst_pops, List.zip_map, List.zip_map, List.map_map]
  rfl

/-- **The order in which the queues take turns does not matter.** -/
theorem Complete.drawn_perm {l l' : List (τ × Entry κ ν)} (h : Complete l) (h' : Complete l')
    (hjoined : ∀ k, joined k (l.map fun x => (x.1, x.2.req)) =
      joined k (l'.map fun x => (x.1, x.2.req))) :
    (drawn [] (ends l)).Perm (drawn [] (ends l')) := by
  refine List.perm_of_filter_eq (fun p => p.1.2) fun k => ?_
  rw [h.drawn_queue, h'.drawn_queue, zip_tags, zip_tags, hjoined]

/-! ## Queues that were turned away -/

omit [DecidableEq ν] in
theorem count_admitted_of_mem {cap : Option Nat} {opened : List κ} {k : κ} (h : k ∈ opened)
    (rs : List (Req κ)) : (admitted cap opened rs).count (.put k) = rs.count (.put k) := by
  induction rs generalizing opened with
  | nil => rfl
  | cons r rs ih =>
    cases r with
    | put k' =>
      rw [admitted]
      split
      · simp only [List.count_cons, ih (subset_openedBy cap opened k' h)]
      · rename_i hout
        have hne : k' ≠ k := fun heq => hout (mem_openedBy.mpr (Or.inl (heq ▸ h)))
        simp [ih h, hne]
    | take k' => simp [admitted, ih h]

omit [DecidableEq ν] in
theorem count_admitted_of_full {cap : Option Nat} {opened : List κ} {k : κ} (h : k ∉ opened)
    (hfull : spare cap opened = false) (rs : List (Req κ)) :
    (admitted cap opened rs).count (.put k) = 0 := by
  induction rs with
  | nil => rfl
  | cons r rs ih =>
    cases r with
    | put k' =>
      have hsame : openedBy cap opened k' = opened := by simp [openedBy, hfull]
      rw [admitted, hsame]
      split
      · rename_i hin
        have hne : k' ≠ k := fun heq => h (heq ▸ hin)
        simp [ih, hne]
      · exact ih
    | take k' => simp [admitted, ih]

omit [DecidableEq ν] in
/-- **Of one queue, all puts are admitted or none.** -/
theorem count_admitted (cap : Option Nat) (opened : List κ) (rs : List (Req κ)) (k : κ) :
    (admitted cap opened rs).count (.put k) = rs.count (.put k) ∨
      (admitted cap opened rs).count (.put k) = 0 := by
  by_cases hk : k ∈ opened
  · exact Or.inl (count_admitted_of_mem hk rs)
  · induction rs generalizing opened with
    | nil => exact Or.inl rfl
    | cons r rs ih =>
      cases r with
      | put k' =>
        rw [admitted]
        by_cases hkk : k' = k
        · subst hkk
          split
          · rename_i hin
            refine Or.inl ?_
            simp [count_admitted_of_mem hin]
          · rename_i hout
            rw [mem_openedBy, not_or] at hout
            exact Or.inr (count_admitted_of_full hk (by simpa using hout.2) rs)
        · have hk' : k ∉ openedBy cap opened k' := by
            unfold openedBy
            split
            · exact hk
            · split
              · simp [hk, Ne.symm hkk]
              · exact hk
          split
          · simpa [hkk] using ih _ hk'
          · simpa [hkk] using ih _ hk
      | take k' => simpa [admitted] using ih _ hk

end

end Fifo

import Mathlib

/-!
# Maps of FIFO queues, and logs of their use

A log is a list of operations on queues named by keys: `push k v` appends, `pop k ans` asks
and records the answer it got (`none` on an empty queue). `Serves q log` says the answers are
the ones FIFO queues starting at `q` would give. That is the whole specification of a keyed
FIFO store, and everything below is a consequence of it that a client can use without
looking at queues again:

* **conservation** (`Serves.pushed_eq`): what was pushed under a key is what was popped
  under it followed by what is still there;
* **supply** (`Serves.answers_eq`): while more is put under every key than taken (`Enough`), no
  pop comes up empty and the answers are the first values pushed; where what is taken is
  named, and only what was put before is taken, there is enough (`Sent.enough`);
* **matching** (`Serves.matched`): if besides the names are taken in the order they are put
  in, every pop gets the value pushed under its own name;
* **sharing** (`serves_of_inTurn`, `inTurn_of_serves`): when several clients are given one
  queue, each of them still sees a FIFO queue of its own exactly as long as they take turns,
  that is, as long as whoever pops is the one whose value is oldest.
-/

set_option autoImplicit false

namespace Fifo

variable {κ ν : Type}

/-- One operation together with its answer. -/
inductive Entry (κ ν : Type) where
  | push (k : κ) (v : ν)
  | pop (k : κ) (ans : Option ν)
  deriving DecidableEq

/-- The contents of every queue, oldest first. -/
abbrev Queues (κ ν : Type) := κ → List ν

/-- The queues before anything happened. -/
def Queues.empty : Queues κ ν := fun _ => []

/-- What was pushed under `k`, in order. -/
def pushed [DecidableEq κ] (k : κ) : List (Entry κ ν) → List ν
  | [] => []
  | .push k' v :: l => if k' = k then v :: pushed k l else pushed k l
  | .pop _ _ :: l => pushed k l

/-- The answers given under `k`, in order, the empty ones included. -/
def answers [DecidableEq κ] (k : κ) : List (Entry κ ν) → List (Option ν)
  | [] => []
  | .push _ _ :: l => answers k l
  | .pop k' ans :: l => if k' = k then ans :: answers k l else answers k l

/-- What was taken out under `k`, in order. -/
def taken [DecidableEq κ] (k : κ) (l : List (Entry κ ν)) : List ν := (answers k l).reduceOption

/-- What was pushed at all, in order. -/
def allPushed : List (Entry κ ν) → List ν
  | [] => []
  | .push _ v :: l => v :: allPushed l
  | .pop _ _ :: l => allPushed l

namespace Entry

def key : Entry κ ν → κ
  | push k _ => k
  | pop k _ => k

variable [DecidableEq κ]

/-- The queues after an operation. -/
def apply (q : Queues κ ν) : Entry κ ν → Queues κ ν
  | push k v => Function.update q k (q k ++ [v])
  | pop k _ => Function.update q k (q k).tail

/-- The answer is the FIFO one. -/
def Ok (q : Queues κ ν) : Entry κ ν → Prop
  | push _ _ => True
  | pop k ans => ans = (q k).head?

instance (q : Queues κ ν) (e : Entry κ ν) [DecidableEq ν] : Decidable (e.Ok q) :=
  match e with
  | push _ _ => isTrue trivial
  | pop k ans => decEq ans (q k).head?

end Entry

section
variable [DecidableEq κ]

/-- The log is one FIFO queues starting at `q` would produce. -/
def Serves (q : Queues κ ν) : List (Entry κ ν) → Prop
  | [] => True
  | e :: l => e.Ok q ∧ Serves (e.apply q) l

instance [DecidableEq ν] : (l : List (Entry κ ν)) → (q : Queues κ ν) → Decidable (Serves q l)
  | [], _ => isTrue trivial
  | e :: l, q => @instDecidableAnd _ _ _ (instDecidableServesOfDecidableEq l (e.apply q))

/-- The queues after a log. -/
def drain (q : Queues κ ν) (l : List (Entry κ ν)) : Queues κ ν := l.foldl Entry.apply q

@[simp] theorem drain_nil (q : Queues κ ν) : drain q [] = q := rfl

@[simp] theorem drain_cons (q : Queues κ ν) (e : Entry κ ν) (l : List (Entry κ ν)) :
    drain q (e :: l) = drain (e.apply q) l := rfl

theorem serves_append {q : Queues κ ν} {l l' : List (Entry κ ν)} :
    Serves q (l ++ l') ↔ Serves q l ∧ Serves (drain q l) l' := by
  induction l generalizing q with
  | nil => simp [Serves]
  | cons e l ih => simp [Serves, ih, and_assoc]

/-- An answer in the middle of a log is the head of its queue there. -/
theorem Serves.answer {q : Queues κ ν} {pre post : List (Entry κ ν)} {k : κ} {ans : Option ν}
    (h : Serves q (pre ++ .pop k ans :: post)) : ans = (drain q pre k).head? :=
  (serves_append.mp h).2.1

/-! ## Conservation -/

theorem pushed_sublist (k : κ) (l : List (Entry κ ν)) : (pushed k l).Sublist (allPushed l) := by
  induction l with
  | nil => exact List.Sublist.refl _
  | cons e l ih =>
    cases e with
    | push k' v =>
      by_cases hk : k' = k
      · simpa [pushed, allPushed, hk] using ih
      · simpa [pushed, allPushed, hk] using ih.cons v
    | pop k' ans => simpa [pushed, allPushed] using ih

omit [DecidableEq κ] in
theorem allPushed_append (l l' : List (Entry κ ν)) :
    allPushed (l ++ l') = allPushed l ++ allPushed l' := by
  induction l with
  | nil => rfl
  | cons e l ih => cases e <;> simp [allPushed, ih]

theorem pushed_append (k : κ) (l l' : List (Entry κ ν)) :
    pushed k (l ++ l') = pushed k l ++ pushed k l' := by
  induction l with
  | nil => rfl
  | cons e l ih =>
    cases e with
    | push k' v => by_cases hk : k' = k <;> simp [pushed, hk, ih]
    | pop k' ans => exact ih

theorem taken_append (k : κ) (l l' : List (Entry κ ν)) :
    taken k (l ++ l') = taken k l ++ taken k l' := by
  have hanswers : answers k (l ++ l') = answers k l ++ answers k l' := by
    induction l with
    | nil => rfl
    | cons e l ih =>
      cases e with
      | push k' v => exact ih
      | pop k' ans => by_cases hk : k' = k <;> simp [answers, hk, ih]
  rw [taken, hanswers, List.reduceOption_append]
  rfl

/-- **Conservation**: per queue, in goes what comes out followed by what is left. -/
theorem Serves.pushed_eq {q : Queues κ ν} {l : List (Entry κ ν)} (h : Serves q l) (k : κ) :
    q k ++ pushed k l = taken k l ++ drain q l k := by
  induction l generalizing q with
  | nil => simp [pushed, taken, answers]
  | cons e l ih =>
    obtain ⟨hok, hrest⟩ := h
    have ih := ih hrest
    cases e with
    | push k' v =>
      by_cases hk : k' = k
      · subst hk
        simpa [pushed, taken, answers, Entry.apply] using ih
      · have hne : k ≠ k' := fun h => hk h.symm
        simpa [pushed, taken, answers, Entry.apply, hk, hne] using ih
    | pop k' ans =>
      by_cases hk : k' = k
      · subst hk
        simp only [Entry.Ok] at hok
        subst hok
        cases hq : q k' with
        | nil => simpa [pushed, taken, answers, Entry.apply, hq] using ih
        | cons v t => simpa [pushed, taken, answers, Entry.apply, hq] using ih
      · have hne : k ≠ k' := fun h => hk h.symm
        simpa [pushed, taken, answers, Entry.apply, hk, hne] using ih

/-- The same from empty queues, where it says what a pop can still expect. -/
theorem Serves.pushed_eq_empty {l : List (Entry κ ν)} (h : Serves Queues.empty l) (k : κ) :
    pushed k l = taken k l ++ drain Queues.empty l k := by
  simpa [Queues.empty] using h.pushed_eq k

/-- **What comes out went in first, in the same order.** -/
theorem Serves.taken_first {l : List (Entry κ ν)} (h : Serves Queues.empty l) (k : κ) :
    taken k l <+: pushed k l :=
  ⟨_, (h.pushed_eq_empty k).symm⟩

theorem mem_answers {k : κ} {ans : Option ν} {l : List (Entry κ ν)} :
    ans ∈ answers k l ↔ Entry.pop k ans ∈ l := by
  induction l with
  | nil => simp [answers]
  | cons e l ih =>
    cases e with
    | push k' v => simp [answers, ih]
    | pop k' ans' =>
      by_cases hk : k' = k
      · subst hk; simp [answers, ih]
      · have hne : k ≠ k' := fun h => hk h.symm
        simp [answers, hk, hne, ih]

/-! ## Requests -/

/-- An operation without its values: something is put into a queue, or taken out. -/
inductive Req (α : Type) where
  | put (a : α)
  | take (a : α)
  deriving DecidableEq

omit [DecidableEq κ] in
def Entry.req : Entry κ ν → Req κ
  | .push a _ => .put a
  | .pop a _ => .take a

theorem length_pushed (k : κ) (l : List (Entry κ ν)) :
    (pushed k l).length = (l.map Entry.req).count (.put k) := by
  induction l with
  | nil => rfl
  | cons e l ih =>
    cases e with
    | push k' v => by_cases hk : k' = k <;> simp [pushed, Entry.req, hk, ih]
    | pop k' ans => simp [pushed, Entry.req, ih]

theorem length_answers (k : κ) (l : List (Entry κ ν)) :
    (answers k l).length = (l.map Entry.req).count (.take k) := by
  induction l with
  | nil => rfl
  | cons e l ih =>
    cases e with
    | push k' v => simp [answers, Entry.req, ih]
    | pop k' ans => by_cases hk : k' = k <;> simp [answers, Entry.req, hk, ih]

/-- **There is always enough**: whenever something is taken under a key, more was put under it
    than taken. -/
def Enough (rs : List (Req κ)) : Prop :=
  ∀ pre k post, rs = pre ++ .take k :: post → pre.count (.take k) < pre.count (.put k)

/-- Then no pop comes up empty. -/
theorem Serves.isSome_of_enough {l : List (Entry κ ν)} (h : Serves Queues.empty l)
    (he : Enough (l.map Entry.req)) {k : κ} {ans : Option ν} (hmem : .pop k ans ∈ l) :
    ans.isSome := by
  obtain ⟨pre, post, rfl⟩ := List.append_of_mem hmem
  have hpre := (serves_append.mp h).1
  cases hans : ans with
  | some v => rfl
  | none =>
    exfalso
    subst hans
    -- nothing is left, so no more was pushed than asked for
    have hleft : drain Queues.empty pre k = [] := by simpa using h.answer.symm
    have hcons := congrArg List.length (hpre.pushed_eq_empty k)
    rw [hleft, List.append_nil, taken, length_pushed] at hcons
    have hle := List.reduceOption_length_le (answers k pre)
    rw [length_answers] at hle
    have hlt := he (pre.map Entry.req) k (post.map Entry.req) (by simp [Entry.req])
    omega

private theorem map_some_reduceOption {α : Type} : ∀ {xs : List (Option α)},
    (∀ x ∈ xs, x.isSome) → xs.reduceOption.map some = xs
  | [], _ => rfl
  | none :: _, h => absurd (h none (by simp)) (by simp)
  | some a :: xs, h => by
    rw [List.reduceOption_cons_of_some, List.map_cons,
      map_some_reduceOption fun x hx => h x (List.mem_cons_of_mem _ hx)]

/-- And the answers are the first values pushed, in order. -/
theorem Serves.answers_eq {l : List (Entry κ ν)} (h : Serves Queues.empty l)
    (he : Enough (l.map Entry.req)) (k : κ) :
    answers k l = ((pushed k l).take (answers k l).length).map some := by
  have hsome : ∀ a ∈ answers k l, a.isSome := fun a ha =>
    h.isSome_of_enough he (mem_answers.mp ha)
  have hans : (taken k l).map some = answers k l := map_some_reduceOption hsome
  have hlen : (taken k l).length = (answers k l).length := by
    rw [← hans, List.length_map]
  rw [h.pushed_eq_empty k, ← hlen, List.take_left, hans]

/-! ## Tags -/

/-- The tags and values of the pushes under `k`. -/
def pushes {τ : Type} (k : κ) : List (τ × Entry κ ν) → List (τ × ν)
  | [] => []
  | (c, .push k' v) :: l => if k' = k then (c, v) :: pushes k l else pushes k l
  | (_, .pop _ _) :: l => pushes k l

/-- The tags and answers of the pops under `k`. -/
def pops {τ : Type} (k : κ) : List (τ × Entry κ ν) → List (τ × Option ν)
  | [] => []
  | (_, .push _ _) :: l => pops k l
  | (c, .pop k' ans) :: l => if k' = k then (c, ans) :: pops k l else pops k l

variable {τ : Type}

theorem map_snd_pushes (k : κ) (l : List (τ × Entry κ ν)) :
    (pushes k l).map Prod.snd = pushed k (l.map Prod.snd) := by
  induction l with
  | nil => rfl
  | cons e l ih =>
    obtain ⟨c, e⟩ := e
    cases e with
    | push k' v => by_cases hk : k' = k <;> simp [pushes, pushed, hk, ih]
    | pop k' ans => simp [pushes, pushed, ih]

theorem map_snd_pops (k : κ) (l : List (τ × Entry κ ν)) :
    (pops k l).map Prod.snd = answers k (l.map Prod.snd) := by
  induction l with
  | nil => rfl
  | cons e l ih =>
    obtain ⟨c, e⟩ := e
    cases e with
    | push k' v => simp [pops, answers, ih]
    | pop k' ans => by_cases hk : k' = k <;> simp [pops, answers, hk, ih]

/-- The tags something is put under `k` with. -/
def putTags (k : κ) (rs : List (τ × Req κ)) : List τ :=
  rs.filterMap fun r => if r.2 = .put k then some r.1 else none

/-- The tags something is taken out under `k` with. -/
def takeTags (k : κ) (rs : List (τ × Req κ)) : List τ :=
  rs.filterMap fun r => if r.2 = .take k then some r.1 else none

theorem mem_putTags {k : κ} {t : τ} {rs : List (τ × Req κ)} :
    t ∈ putTags k rs ↔ (t, Req.put k) ∈ rs := by
  unfold putTags
  rw [List.mem_filterMap]
  constructor
  · rintro ⟨⟨t', r⟩, hmem, ht⟩
    split at ht
    · rename_i hr
      cases ht
      cases hr
      exact hmem
    · exact absurd ht (by simp)
  · exact fun h => ⟨_, h, by simp⟩

theorem mem_takeTags {k : κ} {t : τ} {rs : List (τ × Req κ)} :
    t ∈ takeTags k rs ↔ (t, Req.take k) ∈ rs := by
  unfold takeTags
  rw [List.mem_filterMap]
  constructor
  · rintro ⟨⟨t', r⟩, hmem, ht⟩
    split at ht
    · rename_i hr
      cases ht
      cases hr
      exact hmem
    · exact absurd ht (by simp)
  · exact fun h => ⟨_, h, by simp⟩

theorem length_putTags (k : κ) (rs : List (τ × Req κ)) :
    (putTags k rs).length = (rs.map Prod.snd).count (.put k) := by
  induction rs with
  | nil => rfl
  | cons r rs ih =>
    by_cases hr : r.2 = .put k
    · simp [putTags, hr] at ih ⊢; exact ih
    · simp [putTags, hr] at ih ⊢; exact ih

theorem length_takeTags (k : κ) (rs : List (τ × Req κ)) :
    (takeTags k rs).length = (rs.map Prod.snd).count (.take k) := by
  induction rs with
  | nil => rfl
  | cons r rs ih =>
    by_cases hr : r.2 = .take k
    · simp [takeTags, hr] at ih ⊢; exact ih
    · simp [takeTags, hr] at ih ⊢; exact ih

theorem putTags_append (k : κ) (rs rs' : List (τ × Req κ)) :
    putTags k (rs ++ rs') = putTags k rs ++ putTags k rs' := List.filterMap_append

theorem takeTags_append (k : κ) (rs rs' : List (τ × Req κ)) :
    takeTags k (rs ++ rs') = takeTags k rs ++ takeTags k rs' := List.filterMap_append

theorem putTags_flatMap {α : Type} (k : κ) (f : α → List (τ × Req κ)) (as : List α) :
    putTags k (as.flatMap f) = as.flatMap fun a => putTags k (f a) := List.filterMap_flatMap

theorem takeTags_flatMap {α : Type} (k : κ) (f : α → List (τ × Req κ)) (as : List α) :
    takeTags k (as.flatMap f) = as.flatMap fun a => takeTags k (f a) := List.filterMap_flatMap

theorem putTags_eq_nil {k : κ} {rs : List (τ × Req κ)} (h : ∀ x ∈ rs, x.2 ≠ .put k) :
    putTags k rs = [] :=
  List.filterMap_eq_nil_iff.mpr fun x hx => if_neg (h x hx)

theorem takeTags_eq_nil {k : κ} {rs : List (τ × Req κ)} (h : ∀ x ∈ rs, x.2 ≠ .take k) :
    takeTags k rs = [] :=
  List.filterMap_eq_nil_iff.mpr fun x hx => if_neg (h x hx)

theorem putTags_puts {α : Type} (k : κ) (g : α → κ) (t : τ) (as : List α) :
    putTags k (as.map fun a => (t, .put (g a))) = (as.filter fun a => g a = k).map fun _ => t := by
  induction as with
  | nil => rfl
  | cons a as ih =>
    by_cases ha : g a = k
    · simp [putTags, ha] at ih ⊢; exact ih
    · simp [putTags, ha] at ih ⊢; exact ih

theorem takeTags_takes {α : Type} (k : κ) (g : α → κ) (t : τ) (as : List α) :
    takeTags k (as.map fun a => (t, .take (g a))) =
      (as.filter fun a => g a = k).map fun _ => t := by
  induction as with
  | nil => rfl
  | cons a as ih =>
    by_cases ha : g a = k
    · simp [takeTags, ha] at ih ⊢; exact ih
    · simp [takeTags, ha] at ih ⊢; exact ih

/-- What is put under `k` alone shows all its tags. -/
theorem putTags_own (k : κ) (ts : List τ) : putTags k (ts.map fun t => (t, .put k)) = ts := by
  simp [putTags, List.filterMap_map]

theorem takeTags_own (k : κ) (ts : List τ) : takeTags k (ts.map fun t => (t, .take k)) = ts := by
  simp [takeTags, List.filterMap_map]

theorem map_fst_pushes (k : κ) (l : List (τ × Entry κ ν)) :
    (pushes k l).map Prod.fst = putTags k (l.map fun x => (x.1, x.2.req)) := by
  induction l with
  | nil => rfl
  | cons x l ih =>
    obtain ⟨c, e⟩ := x
    cases e with
    | push k' v =>
      by_cases hk : k' = k
      · simp [pushes, putTags, Entry.req, hk] at ih ⊢; exact ih
      · simp [pushes, putTags, Entry.req, hk] at ih ⊢; exact ih
    | pop k' ans => simp [pushes, putTags, Entry.req] at ih ⊢; exact ih

theorem map_fst_pops (k : κ) (l : List (τ × Entry κ ν)) :
    (pops k l).map Prod.fst = takeTags k (l.map fun x => (x.1, x.2.req)) := by
  induction l with
  | nil => rfl
  | cons x l ih =>
    obtain ⟨c, e⟩ := x
    cases e with
    | push k' v => simp [pops, takeTags, Entry.req] at ih ⊢; exact ih
    | pop k' ans =>
      by_cases hk : k' = k
      · simp [pops, takeTags, Entry.req, hk] at ih ⊢; exact ih
      · simp [pops, takeTags, Entry.req, hk] at ih ⊢; exact ih

/-- Nothing is taken before something of its tag is put. -/
def Causal (rs : List (τ × Req κ)) : Prop :=
  rs.Pairwise fun x y => x.1 = y.1 → ∀ k, x.2 = .take k → y.2 ≠ .put k

/-- Under each key, only tags that are put are taken, each once, and none before it is put. -/
structure Sent (rs : List (τ × Req κ)) : Prop where
  sent : ∀ k, takeTags k rs ⊆ putTags k rs
  nodup : ∀ k, (takeTags k rs).Nodup
  causal : Causal rs

/-- What is taken with a tag was put with it before. -/
theorem Sent.before {pre post : List (τ × Req κ)} {c : τ} {k : κ}
    (h : Sent (pre ++ (c, .take k) :: post)) :
    takeTags k pre ++ [c] ⊆ putTags k pre := by
  intro t ht
  have htake : (t, Req.take k) ∈ pre ++ [(c, .take k)] := by
    rcases List.mem_append.mp ht with ht | ht
    · exact List.mem_append_left _ (mem_takeTags.mp ht)
    · rw [List.mem_singleton.mp ht]
      simp
  have hput : t ∈ putTags k (pre ++ (c, .take k) :: post) := by
    refine h.sent k (mem_takeTags.mpr ?_)
    rcases List.mem_append.mp htake with hm | hm
    · exact List.mem_append_left _ hm
    · rw [List.mem_singleton.mp hm]
      simp
  rw [putTags_append] at hput
  rcases List.mem_append.mp hput with hpre | hpost
  · exact hpre
  · -- the put would come later, which is what causality excludes
    have hmem : (t, Req.put k) ∈ post := by simpa using mem_putTags.mp hpost
    have hcausal := h.causal
    rw [show pre ++ (c, Req.take k) :: post = (pre ++ [(c, .take k)]) ++ post by simp, Causal,
      List.pairwise_append] at hcausal
    exact absurd rfl (hcausal.2.2 _ htake _ hmem rfl k rfl)

/-- **Then there is always enough**: what was taken so far, and what is taken next, are
    distinct tags that were all put. -/
theorem Sent.enough {rs : List (τ × Req κ)} (h : Sent rs) : Enough (rs.map Prod.snd) := by
  intro pre k post heq
  obtain ⟨pre, rest, rfl, rfl, hrest⟩ := List.map_eq_append_iff.mp heq
  obtain ⟨x, post, rfl, hx, rfl⟩ := List.map_eq_cons_iff.mp hrest
  obtain ⟨c, req⟩ := x
  simp only at hx
  subst hx
  have hnodup : (takeTags k pre ++ [c]).Nodup := by
    refine (h.nodup k).sublist ?_
    rw [takeTags_append]
    refine List.Sublist.append_left ?_ _
    simp [takeTags]
  have hlen := (hnodup.subperm h.before).length_le
  rw [List.length_append, List.length_singleton, length_takeTags, length_putTags] at hlen
  omega

private theorem eq_of_map_fst_snd {α β : Type} : ∀ {xs ys : List (α × β)},
    xs.map Prod.fst = ys.map Prod.fst → xs.map Prod.snd = ys.map Prod.snd → xs = ys
  | [], [], _, _ => rfl
  | [], _ :: _, h, _ => absurd h (by simp)
  | _ :: _, [], h, _ => absurd h (by simp)
  | (a, b) :: xs, (a', b') :: ys, h₁, h₂ => by
    simp only [List.map_cons, List.cons.injEq] at h₁ h₂
    rw [eq_of_map_fst_snd h₁.2 h₂.2, h₁.1, h₂.1]

/-- **Matching**: where the tags are taken in the order they are put in, every pop gets the
    value pushed with its own tag. -/
theorem Serves.matched {l : List (τ × Entry κ ν)} (h : Serves Queues.empty (l.map Prod.snd))
    (he : Enough (l.map fun x => x.2.req)) {k : κ}
    (htags : takeTags k (l.map fun x => (x.1, x.2.req)) <+:
      putTags k (l.map fun x => (x.1, x.2.req))) :
    pops k l = ((pushes k l).take (pops k l).length).map fun p => (p.1, some p.2) := by
  apply eq_of_map_fst_snd
  · rw [List.map_map]
    show _ = ((pushes k l).take (pops k l).length).map Prod.fst
    rw [← map_fst_pops, ← map_fst_pushes] at htags
    have hpfx := List.prefix_iff_eq_take.mp htags
    rw [List.length_map] at hpfx
    rw [hpfx, List.map_take]
  · have hans := h.answers_eq (by rw [List.map_map]; exact he) k
    rw [← map_snd_pops, ← map_snd_pushes, List.length_map, ← List.map_take, List.map_map] at hans
    rw [hans, List.map_map]
    rfl

omit [DecidableEq κ] in
/-- Pops that are answered by the first of `vs`, in order. -/
theorem eq_zip_of_answers {ps : List (τ × Option ν)} {vs : List ν}
    (h : ps.map Prod.snd = (vs.take ps.length).map some) :
    ps = ((ps.map Prod.fst).zip vs).map fun m => (m.1, some m.2) := by
  induction ps generalizing vs with
  | nil => rfl
  | cons p ps ih =>
    cases vs with
    | nil => exact absurd h (by simp)
    | cons v vs =>
      simp only [List.map_cons, List.length_cons, List.take_succ_cons, List.cons.injEq] at h
      rw [List.map_cons, List.zip_cons_cons, List.map_cons, ← ih h.2, ← h.1]

/-- Everything pushed, with its tag and its key. -/
def allPushes (l : List (τ × Entry κ ν)) : List (τ × κ × ν) :=
  l.filterMap fun
    | (c, .push k v) => some (c, k, v)
    | (_, .pop _ _) => none

/-- Everything asked for, with its tag, its key and the answer. -/
def allPops (l : List (τ × Entry κ ν)) : List (τ × κ × Option ν) :=
  l.filterMap fun
    | (_, .push _ _) => none
    | (c, .pop k ans) => some (c, k, ans)

omit [DecidableEq κ] in
theorem map_allPushes (l : List (τ × Entry κ ν)) :
    (allPushes l).map (fun x => x.2.2) = allPushed (l.map Prod.snd) := by
  induction l with
  | nil => rfl
  | cons e l ih =>
    obtain ⟨c, e⟩ := e
    cases e with
    | push k v => exact congrArg (v :: ·) ih
    | pop k ans => exact ih

/-- Where there is one key, everything pushed is what is pushed under it. -/
theorem allPushes_of_key {k : κ} {l : List (τ × Entry κ ν)} (h : ∀ x ∈ l, x.2.key = k) :
    allPushes l = (pushes k l).map fun p => (p.1, k, p.2) := by
  induction l with
  | nil => rfl
  | cons x l ih =>
    have ih := ih fun y hy => h y (by simp [hy])
    have hx := h x (by simp)
    obtain ⟨c, e⟩ := x
    cases e with
    | push k' v =>
      have hk : k' = k := hx
      simp [allPushes, pushes, hk] at ih ⊢; exact ih
    | pop k' ans => simp [allPushes, pushes] at ih ⊢; exact ih

theorem allPops_of_key {k : κ} {l : List (τ × Entry κ ν)} (h : ∀ x ∈ l, x.2.key = k) :
    allPops l = (pops k l).map fun p => (p.1, k, p.2) := by
  induction l with
  | nil => rfl
  | cons x l ih =>
    have ih := ih fun y hy => h y (by simp [hy])
    have hx := h x (by simp)
    obtain ⟨c, e⟩ := x
    cases e with
    | push k' v => simp [allPops, pops] at ih ⊢; exact ih
    | pop k' ans =>
      have hk : k' = k := hx
      simp [allPops, pops, hk] at ih ⊢; exact ih

private theorem count_allPushes [DecidableEq τ] [DecidableEq ν] (c : τ) (k : κ) (v : ν)
    (l : List (τ × Entry κ ν)) : (allPushes l).count (c, k, v) = (pushes k l).count (c, v) := by
  induction l with
  | nil => rfl
  | cons e l ih =>
    obtain ⟨c', e⟩ := e
    cases e with
    | push k' v' =>
      by_cases hk : k' = k
      · simp [allPushes, pushes, hk, List.count_cons] at ih ⊢; rw [ih]
      · simp [allPushes, pushes, hk] at ih ⊢; exact ih
    | pop k' ans => simpa [allPushes, pushes] using ih

private theorem count_allPops [DecidableEq τ] [DecidableEq ν] (c : τ) (k : κ) (ans : Option ν)
    (l : List (τ × Entry κ ν)) : (allPops l).count (c, k, ans) = (pops k l).count (c, ans) := by
  induction l with
  | nil => rfl
  | cons e l ih =>
    obtain ⟨c', e⟩ := e
    cases e with
    | push k' v' => simpa [allPops, pops] using ih
    | pop k' ans' =>
      by_cases hk : k' = k
      · simp [allPops, pops, hk, List.count_cons] at ih ⊢; rw [ih]
      · simp [allPops, pops, hk] at ih ⊢; exact ih

/-- The tags of what is pushed, queue by queue. -/
theorem tags_allPushes (k : κ) (l : List (τ × Entry κ ν)) :
    ((allPushes l).filter fun x => x.2.1 = k).map Prod.fst = (pushes k l).map Prod.fst := by
  induction l with
  | nil => rfl
  | cons e l ih =>
    obtain ⟨c, e⟩ := e
    cases e with
    | push k' v =>
      by_cases hk : k' = k
      · simp [allPushes, pushes, hk] at ih ⊢; exact ih
      · simp [allPushes, pushes, hk] at ih ⊢; exact ih
    | pop k' ans => simpa [allPushes, pushes] using ih

private theorem count_tags [DecidableEq τ] (c : τ) (k : κ) (xs : List (τ × κ)) :
    xs.count (c, k) = ((xs.filter fun x => x.2 = k).map Prod.fst).count c := by
  induction xs with
  | nil => rfl
  | cons x xs ih =>
    obtain ⟨c', k'⟩ := x
    by_cases hk : k' = k
    · simp [hk, List.count_cons, ih]
    · simp [hk, ih]

/-- **Lists with the same tags under every key** are the same, up to the order. -/
theorem perm_of_tags {xs ys : List (τ × κ)}
    (h : ∀ k, (xs.filter fun x => x.2 = k).map Prod.fst =
      (ys.filter fun y => y.2 = k).map Prod.fst) : xs.Perm ys := by
  classical
  rw [List.perm_iff_count]
  rintro ⟨c, k⟩
  rw [count_tags, count_tags, h k]

/-- When every queue hands out what was put into it, tag by tag, so do all of them together,
    up to the order. -/
theorem allPops_perm {l : List (τ × Entry κ ν)}
    (h : ∀ k, pops k l = (pushes k l).map fun p => (p.1, some p.2)) :
    (allPops l).Perm ((allPushes l).map fun x => (x.1, x.2.1, some x.2.2)) := by
  classical
  rw [List.perm_iff_count]
  rintro ⟨c, k, ans⟩
  rw [count_allPops, h k]
  cases ans with
  | none =>
    rw [List.count_eq_zero_of_not_mem (by simp), List.count_eq_zero_of_not_mem (by simp)]
  | some v =>
    have hinj : Function.Injective fun x : τ × κ × ν => (x.1, x.2.1, some x.2.2) := by
      rintro ⟨c, k, v⟩ ⟨c', k', v'⟩ heq
      simpa using heq
    have hinj' : Function.Injective fun p : τ × ν => (p.1, some p.2) := by
      rintro ⟨c, v⟩ ⟨c', v'⟩ heq
      simpa using heq
    have hcount := List.count_map_of_injective (allPushes l) _ hinj (c, k, v)
    have hcount' := List.count_map_of_injective (pushes k l) _ hinj' (c, v)
    rw [hcount, hcount', count_allPushes]

end

/-! ## Several clients on one queue -/

section
variable {α : Type} [DecidableEq α] [DecidableEq κ]

/-- The same operation on the queue `g` gives the client. -/
def Entry.rekey (g : α → κ) : Entry α ν → Entry κ ν
  | .push a v => .push (g a) v
  | .pop a ans => .pop (g a) ans

/-- The same request at the queue `g` gives the client. -/
def Req.rekey (g : α → κ) : Req α → Req κ
  | .put a => .put (g a)
  | .take a => .take (g a)

omit [DecidableEq α] [DecidableEq κ] in
@[simp] theorem Entry.req_rekey (g : α → κ) (e : Entry α ν) :
    (e.rekey g).req = e.req.rekey g := by
  cases e <;> rfl

/-- The clients that own what is in each queue after an operation. -/
def Req.apply (g : α → κ) (q : Queues κ α) : Req α → Queues κ α
  | .put a => Function.update q (g a) (q (g a) ++ [a])
  | .take a => Function.update q (g a) (q (g a)).tail

/-- Whoever takes from a queue that is not empty is the owner of its oldest value. -/
def Req.Own (g : α → κ) (q : Queues κ α) : Req α → Prop
  | .put _ => True
  | .take a => ∀ b ∈ (q (g a)).head?, b = a

instance (g : α → κ) (q : Queues κ α) (r : Req α) : Decidable (r.Own g q) :=
  match r with
  | .put _ => isTrue trivial
  | .take a => inferInstanceAs (Decidable (∀ b ∈ (q (g a)).head?, b = a))

/-- **The clients take turns**: every value taken is taken by its owner. A condition on the
    order of the requests alone, from the owners `q` of what is already there. -/
def InTurn (g : α → κ) (q : Queues κ α) : List (Req α) → Prop
  | [] => True
  | r :: l => r.Own g q ∧ InTurn g (r.apply g q) l

instance (g : α → κ) : (l : List (Req α)) → (q : Queues κ α) → Decidable (InTurn g q l)
  | [], _ => isTrue trivial
  | r :: l, q => @instDecidableAnd _ _ _ (instDecidableInTurn g l (r.apply g q))

/-- A client's own share of what is in its queue. -/
private def share (g : α → κ) (m : Queues κ (α × ν)) : Queues α ν :=
  fun a => ((m (g a)).filter (·.1 = a)).map Prod.snd

private theorem share_put (g : α → κ) (m : Queues κ (α × ν)) (a : α) (v : ν) :
    share g (Function.update m (g a) (m (g a) ++ [(a, v)])) =
      Function.update (share g m) a (share g m a ++ [v]) := by
  funext b
  by_cases hb : b = a
  · subst hb; simp [share]
  · have hba : ¬ a = b := fun h => hb h.symm
    by_cases hg : g b = g a
    · simp [share, hg, hb, hba]
    · simp [share, hg, hb]

private theorem share_take (g : α → κ) (m : Queues κ (α × ν)) (a : α)
    (hown : ∀ p ∈ (m (g a)).head?, p.1 = a) :
    share g (Function.update m (g a) (m (g a)).tail) =
      Function.update (share g m) a (share g m a).tail := by
  funext b
  cases hm : m (g a) with
  | nil =>
    by_cases hb : b = a
    · subst hb; simp [share, hm]
    · by_cases hg : g b = g a
      · simp [share, hg, hb, hm]
      · simp [share, hg, hb]
  | cons p t =>
    have hp : p.1 = a := hown p (by simp [hm])
    by_cases hb : b = a
    · subst hb; simp [share, hm, hp]
    · have hpb : ¬ p.1 = b := fun h => hb (h ▸ hp)
      by_cases hg : g b = g a
      · simp [share, hg, hb, hm, hpb]
      · simp [share, hg, hb]

private theorem map_update {β γ : Type} (f : β → γ) (m : Queues κ β) (k : κ) (xs : List β) :
    (fun k' => ((Function.update m k xs) k').map f) =
      Function.update (fun k' => (m k').map f) k (xs.map f) := by
  funext k'
  by_cases hk : k' = k
  · subst hk; simp
  · simp [hk]

/-- The shared queues' view and the owners' view of one merged store, and what each client
    sees of it: if the first answers like FIFO queues and the clients take turns, so does
    the last. -/
private theorem serves_share (g : α → κ) {log : List (Entry α ν)} (m : Queues κ (α × ν))
    (h : Serves (fun k => (m k).map Prod.snd) (log.map (Entry.rekey g)))
    (ht : InTurn g (fun k => (m k).map Prod.fst) (log.map Entry.req)) :
    Serves (share g m) log := by
  induction log generalizing m with
  | nil => trivial
  | cons e log ih =>
    obtain ⟨hok, hrest⟩ := h
    obtain ⟨hown, hturn⟩ := ht
    cases e with
    | push a v =>
      refine ⟨trivial, ?_⟩
      simp only [Entry.apply, ← share_put]
      apply ih
      · simpa [Entry.rekey, Entry.apply, map_update] using hrest
      · simpa [Entry.req, Req.apply, map_update] using hturn
    | pop a ans =>
      have hown' : ∀ p ∈ (m (g a)).head?, p.1 = a := by
        intro p hp
        refine hown p.1 ?_
        simp only [Option.mem_def] at hp ⊢
        simp [List.head?_map, hp]
      refine ⟨?_, ?_⟩
      · -- the oldest value of the queue is the client's own oldest value
        simp only [Entry.rekey, Entry.Ok] at hok
        simp only [Entry.Ok, share, hok]
        cases hm : m (g a) with
        | nil => simp
        | cons p t =>
          have hp : p.1 = a := hown' p (by simp [hm])
          simp [hp]
      · simp only [Entry.apply]
        rw [← share_take g m a hown']
        apply ih
        · simpa [Entry.rekey, Entry.apply, map_update, List.map_tail] using hrest
        · simpa [Entry.req, Req.apply, map_update, List.map_tail] using hturn

/-- **Taking turns is enough**: then every client of a shared queue sees a FIFO queue of its
    own. -/
theorem serves_of_inTurn {g : α → κ} {log : List (Entry α ν)}
    (h : Serves Queues.empty (log.map (Entry.rekey g)))
    (ht : InTurn g Queues.empty (log.map Entry.req)) : Serves Queues.empty log :=
  serves_share g Queues.empty h ht

private theorem inTurn_share (g : α → κ) {log : List (Entry α ν)} (m : Queues κ (α × ν))
    (h : Serves (fun k => (m k).map Prod.snd) (log.map (Entry.rekey g)))
    (hs : Serves (share g m) log)
    (hnd : ∀ k, ((m k).map Prod.snd ++ pushed k (log.map (Entry.rekey g))).Nodup) :
    InTurn g (fun k => (m k).map Prod.fst) (log.map Entry.req) := by
  induction log generalizing m with
  | nil => trivial
  | cons e log ih =>
    obtain ⟨hok, hrest⟩ := h
    obtain ⟨hshare, hsrest⟩ := hs
    cases e with
    | push a v =>
      refine ⟨trivial, ?_⟩
      have := ih (Function.update m (g a) (m (g a) ++ [(a, v)]))
        (by simpa [Entry.rekey, Entry.apply, map_update] using hrest)
        (by simpa [Entry.apply, share_put] using hsrest)
        (by
          intro k
          have hk := hnd k
          by_cases hkg : k = g a
          · subst hkg
            simpa [Entry.rekey, pushed] using hk
          · have hgk : ¬ g a = k := fun h => hkg h.symm
            simpa [Entry.rekey, pushed, hkg, hgk] using hk)
      simpa [Entry.req, Req.apply, map_update] using this
    | pop a ans =>
      have hown' : ∀ p ∈ (m (g a)).head?, p.1 = a := by
        intro p hp
        simp only [Option.mem_def] at hp
        obtain ⟨t, hm⟩ : ∃ t, m (g a) = p :: t := by
          cases hm : m (g a) with
          | nil => rw [hm] at hp; simp at hp
          | cons p' t => rw [hm] at hp; simp at hp; exact ⟨t, by rw [hp]⟩
        by_contra hne
        -- the answer is `p`'s value, but it is also one of the values behind it
        simp only [Entry.rekey, Entry.Ok, hm] at hok
        simp only [Entry.Ok, share, hm, hok] at hshare
        have hin : p.2 ∈ t.map Prod.snd := by
          simp only [List.map_cons, List.head?_cons, decide_eq_true_eq, hne, not_false_eq_true,
            List.filter_cons_of_neg] at hshare
          have hmem := List.mem_of_mem_head? (Option.mem_def.mpr hshare.symm)
          obtain ⟨x, hx, hxv⟩ := List.mem_map.mp hmem
          exact List.mem_map.mpr ⟨x, List.mem_of_mem_filter hx, hxv⟩
        have hk := hnd (g a)
        rw [hm] at hk
        simp only [List.map_cons, List.cons_append, List.nodup_cons, List.mem_append] at hk
        exact hk.1 (Or.inl hin)
      refine ⟨?_, ?_⟩
      · intro b hb
        simp only [Option.mem_def, List.head?_map, Option.map_eq_some_iff] at hb
        obtain ⟨p, hp, rfl⟩ := hb
        exact hown' p hp
      · have := ih (Function.update m (g a) (m (g a)).tail)
          (by simpa [Entry.rekey, Entry.apply, map_update, List.map_tail] using hrest)
          (by rw [share_take g m a hown']; simpa [Entry.apply] using hsrest)
          (by
            intro k
            have hk := hnd k
            simp only [List.map_cons, Entry.rekey, pushed] at hk
            by_cases hkg : k = g a
            · subst hkg
              refine hk.sublist (List.Sublist.append_right ?_ _)
              simpa using (List.tail_sublist (m (g a))).map Prod.snd
            · simpa [hkg] using hk)
        simpa [Entry.req, Req.apply, map_update, List.map_tail] using this

/-- **Taking turns is necessary** when the values are distinct: a client that gets its own
    oldest value although another's is older would get a value that is in the queue twice. -/
theorem inTurn_of_serves {g : α → κ} {log : List (Entry α ν)}
    (h : Serves Queues.empty (log.map (Entry.rekey g))) (hs : Serves Queues.empty log)
    (hnd : ∀ k, (pushed k (log.map (Entry.rekey g))).Nodup) :
    InTurn g Queues.empty (log.map Entry.req) :=
  inTurn_share g Queues.empty h hs fun k => by simpa [Queues.empty] using hnd k

end

end Fifo

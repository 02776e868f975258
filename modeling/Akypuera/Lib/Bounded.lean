import Akypuera.Lib.Fifo

/-!
# Families of queues that can only be so many

A queue is opened by the first thing put into it, and no more than `cap` queues are ever
opened: what is put under a further key is turned away. Which requests that leaves is a
function of the requests alone (`admitted`), and **it leaves all of them exactly when no more
than `cap` keys are ever put under** (`admitted_eq_self_iff`).

On the requests that are left the queues are ordinary FIFO queues, so whether a pop comes up
empty (`Serves.forall_isSome_iff`) and what the pops hand out altogether (`Serves.handedOut_eq`)
can be told from the requests and the values pushed.
-/

set_option autoImplicit false

namespace Fifo

variable {κ ν : Type}

/-- The keys that are put under, in order. -/
def putKeys : List (Req κ) → List κ
  | [] => []
  | .put k :: rs => k :: putKeys rs
  | .take _ :: rs => putKeys rs

theorem putKeys_append (rs rs' : List (Req κ)) :
    putKeys (rs ++ rs') = putKeys rs ++ putKeys rs' := by
  induction rs with
  | nil => rfl
  | cons r rs ih => cases r <;> simp [putKeys, ih]

theorem mem_putKeys {k : κ} {rs : List (Req κ)} : k ∈ putKeys rs ↔ Req.put k ∈ rs := by
  induction rs with
  | nil => simp [putKeys]
  | cons r rs ih => cases r <;> simp [putKeys, ih]

/-- What was handed out by all pops, in order. -/
def allTaken : List (Entry κ ν) → List ν
  | [] => []
  | .push _ _ :: l => allTaken l
  | .pop _ ans :: l => ans.toList ++ allTaken l

section
variable [DecidableEq κ]

/-! ## Admission -/

/-- Another queue may be opened. -/
def spare (cap : Option Nat) (opened : List κ) : Bool :=
  match cap with
  | none => true
  | some n => decide (opened.length < n)

/-- The queues that are open after `k` was put under. -/
def openedBy (cap : Option Nat) (opened : List κ) (k : κ) : List κ :=
  if k ∈ opened then opened else if spare cap opened then k :: opened else opened

/-- The requests that reach a queue, where the queues of `opened` are open. -/
def admitted (cap : Option Nat) : List κ → List (Req κ) → List (Req κ)
  | _, [] => []
  | opened, .put k :: rs =>
      if k ∈ openedBy cap opened k then .put k :: admitted cap (openedBy cap opened k) rs
      else admitted cap opened rs
  | opened, .take k :: rs => .take k :: admitted cap opened rs

theorem mem_openedBy {cap : Option Nat} {opened : List κ} {k : κ} :
    k ∈ openedBy cap opened k ↔ k ∈ opened ∨ spare cap opened = true := by
  unfold openedBy
  split
  · simp [*]
  · split <;> simp [*]

/-- A put that is turned away opens nothing. -/
theorem openedBy_of_not_mem {cap : Option Nat} {opened : List κ} {k : κ}
    (h : k ∉ openedBy cap opened k) : openedBy cap opened k = opened := by
  rw [mem_openedBy, not_or] at h
  simp [openedBy, h.1, h.2]

theorem subset_openedBy (cap : Option Nat) (opened : List κ) (k : κ) :
    opened ⊆ openedBy cap opened k := by
  intro k' hk'
  unfold openedBy
  split
  · exact hk'
  · split
    · exact List.mem_cons_of_mem _ hk'
    · exact hk'

theorem admitted_sublist (cap : Option Nat) (opened : List κ) (rs : List (Req κ)) :
    (admitted cap opened rs).Sublist rs := by
  induction rs generalizing opened with
  | nil => exact List.Sublist.refl _
  | cons r rs ih =>
    cases r with
    | put k =>
      unfold admitted
      split
      · exact (ih _).cons_cons _
      · exact (ih _).cons _
    | take k => exact (ih _).cons_cons _

/-- The queues open after some requests. -/
def openedAfter (cap : Option Nat) (opened : List κ) (rs : List (Req κ)) : List κ :=
  (putKeys rs).foldl (openedBy cap) opened

theorem admitted_append (cap : Option Nat) (opened : List κ) (rs rs' : List (Req κ)) :
    admitted cap opened (rs ++ rs') =
      admitted cap opened rs ++ admitted cap (openedAfter cap opened rs) rs' := by
  induction rs generalizing opened with
  | nil => rfl
  | cons r rs ih =>
    cases r with
    | put k =>
      rw [List.cons_append, admitted, admitted]
      split
      · rw [ih]; rfl
      · next hk =>
        rw [ih, openedAfter, openedAfter, putKeys, List.foldl_cons, openedBy_of_not_mem hk]
    | take k => simp [admitted, openedAfter, putKeys, ih]

/-- Without a limit nothing is turned away. -/
theorem admitted_none (opened : List κ) (rs : List (Req κ)) : admitted none opened rs = rs := by
  induction rs generalizing opened with
  | nil => rfl
  | cons r rs ih =>
    cases r with
    | put k => rw [admitted, if_pos (mem_openedBy.mpr (Or.inr rfl)), ih]
    | take k => rw [admitted, ih]

/-- **Nothing is turned away exactly when there are queues for all keys.** -/
theorem admitted_eq_self_iff_from {n : Nat} {opened : List κ} (hnodup : opened.Nodup)
    (hlen : opened.length ≤ n) (rs : List (Req κ)) :
    admitted (some n) opened rs = rs ↔
      (opened.toFinset ∪ (putKeys rs).toFinset).card ≤ n := by
  induction rs generalizing opened with
  | nil => simp [admitted, putKeys, List.toFinset_card_of_nodup hnodup, hlen]
  | cons r rs ih =>
    cases r with
    | take k => simpa [admitted, putKeys] using ih hnodup hlen
    | put k =>
      have hkeys : opened.toFinset ∪ (putKeys (.put k :: rs)).toFinset =
          insert k opened.toFinset ∪ (putKeys rs).toFinset := by
        rw [putKeys, List.toFinset_cons, Finset.union_insert, Finset.insert_union]
      rw [hkeys]
      by_cases hmem : k ∈ opened
      · have hsame : openedBy (some n) opened k = opened := by simp [openedBy, hmem]
        rw [admitted, if_pos (by rw [hsame]; exact hmem), hsame, List.cons_inj_right,
          ih hnodup hlen, Finset.insert_eq_self.mpr (List.mem_toFinset.mpr hmem)]
      · by_cases hroom : opened.length < n
        · have hopen : openedBy (some n) opened k = k :: opened := by
            simp [openedBy, hmem, spare, hroom]
          rw [admitted, if_pos (by rw [hopen]; simp), hopen, List.cons_inj_right,
            ih (List.nodup_cons.mpr ⟨hmem, hnodup⟩) hroom, List.toFinset_cons]
        · -- the put is turned away, and with it there are too many keys
          have hfull : k ∉ openedBy (some n) opened k := by
            simp [mem_openedBy, hmem, spare, hroom]
          rw [admitted, if_neg hfull]
          refine iff_of_false (fun heq => ?_) (fun hcard => ?_)
          · have hle := (admitted_sublist (some n) opened rs).length_le
            rw [heq] at hle
            exact absurd hle (by simp)
          · have hsub : insert k opened.toFinset ⊆
                insert k opened.toFinset ∪ (putKeys rs).toFinset := Finset.subset_union_left
            have hle := (Finset.card_le_card hsub).trans hcard
            rw [Finset.card_insert_of_notMem (by simpa using hmem),
              List.toFinset_card_of_nodup hnodup] at hle
            omega

theorem admitted_eq_self_iff (n : Nat) (rs : List (Req κ)) :
    admitted (some n) [] rs = rs ↔ (putKeys rs).toFinset.card ≤ n := by
  simpa using admitted_eq_self_iff_from List.nodup_nil (Nat.zero_le n) rs

/-! ## How many wait -/

/-- How many wait under each key after a request. Taking from an empty queue takes nothing. -/
def Req.waiting (n : κ → Nat) : Req κ → κ → Nat
  | .put k => Function.update n k (n k + 1)
  | .take k => Function.update n k (n k - 1)

/-- Fewer than `m` ever wait under one key, where `n` wait at first. -/
def Within (m : Nat) (n : κ → Nat) : List (Req κ) → Prop
  | [] => True
  | .put k :: rs => n k + 1 < m ∧ Within m (Req.waiting n (.put k)) rs
  | .take k :: rs => Within m (Req.waiting n (.take k)) rs

instance decidableWithin (m : Nat) : ∀ (n : κ → Nat) (rs : List (Req κ)), Decidable (Within m n rs)
  | _, [] => isTrue trivial
  | n, .put k :: rs =>
      have := decidableWithin m (Req.waiting n (.put k)) rs
      inferInstanceAs (Decidable (n k + 1 < m ∧ Within m (Req.waiting n (.put k)) rs))
  | n, .take k :: rs => decidableWithin m (Req.waiting n (.take k)) rs

theorem Within.of_append {m : Nat} {n : κ → Nat} {rs rs' : List (Req κ)}
    (h : Within m n (rs ++ rs')) : Within m n rs := by
  induction rs generalizing n with
  | nil => trivial
  | cons r rs ih =>
    cases r with
    | put k => exact ⟨h.1, ih h.2⟩
    | take k => exact ih h

/-- What is put one after the other waits. -/
theorem Within.replicate {m j : Nat} {n : κ → Nat} {k : κ}
    (h : Within m n (List.replicate (j + 1) (.put k))) : n k + j + 1 < m := by
  induction j generalizing n with
  | zero => exact h.1
  | succ j ih =>
    have hrest := ih h.2
    rw [Req.waiting, Function.update_self] at hrest
    omega

/-! ## Empty answers -/

/-- What there is enough for, there was enough for before. -/
theorem Enough.of_append {rs rs' : List (Req κ)} (h : Enough (rs ++ rs')) : Enough rs :=
  fun pre k post heq => h pre k (post ++ rs') (by simp [heq])

/-- A request is met after `pre`: if something is taken, more was put than taken before. -/
def Req.Met (pre : List (Req κ)) : Req κ → Prop
  | .put _ => True
  | .take k => pre.count (.take k) < pre.count (.put k)

instance (pre : List (Req κ)) (r : Req κ) : Decidable (r.Met pre) :=
  match r with
  | .put _ => isTrue trivial
  | .take k => inferInstanceAs (Decidable (pre.count (.take k) < pre.count (.put k)))

/-- Enough, checked at each place. -/
theorem enough_iff_met (rs : List (Req κ)) :
    Enough rs ↔ ∀ i : Fin rs.length, (rs.get i).Met (rs.take i) := by
  constructor
  · intro h i
    cases hr : rs.get i with
    | put k => trivial
    | take k =>
      refine h (rs.take i) k (rs.drop (i + 1)) ?_
      rw [← hr]
      exact (List.take_append_drop i rs).symm.trans (by rw [List.drop_eq_getElem_cons i.2]; rfl)
  · rintro h pre k post rfl
    have hi := h ⟨pre.length, by simp⟩
    simpa [Req.Met] using hi

instance (rs : List (Req κ)) : Decidable (Enough rs) :=
  decidable_of_iff _ (enough_iff_met rs).symm

/-- **Pops come up empty exactly where there is not enough.** -/
theorem Serves.forall_isSome_iff {l : List (Entry κ ν)} (h : Serves Queues.empty l) :
    (∀ k ans, .pop k ans ∈ l → ans.isSome) ↔ Enough (l.map Entry.req) := by
  constructor
  · intro hsome pre k post heq
    obtain ⟨lpre, lrest, rfl, hpre, hrest⟩ := List.map_eq_append_iff.mp heq
    obtain ⟨e, lpost, rfl, he, -⟩ := List.map_eq_cons_iff.mp hrest
    cases e with
    | push k' v => exact absurd he (by simp [Entry.req])
    | pop k' ans =>
      cases he
      have hans := hsome k ans (by simp)
      rw [h.answer] at hans
      -- the queue is not empty, so more was pushed than taken
      have hleft : 0 < (drain Queues.empty lpre k).length :=
        List.length_pos_of_ne_nil fun hnil => by rw [hnil] at hans; exact absurd hans (by simp)
      have hcons := congrArg List.length ((serves_append.mp h).1.pushed_eq_empty k)
      have htaken : (taken k lpre).length = (answers k lpre).length := by
        rw [taken, List.reduceOption_length_eq_iff]
        exact fun a ha => hsome k a (List.mem_append_left _ (mem_answers.mp ha))
      rw [List.length_append, htaken, length_pushed, length_answers, hpre] at hcons
      omega
  · exact fun he k ans hmem => h.isSome_of_enough he hmem

/-! ## What is handed out -/

/-- What FIFO queues hand out when the values `vs` are put into them, one after the other. -/
def handedOut (q : Queues κ ν) : List ν → List (Req κ) → List ν
  | v :: vs, .put k :: rs => handedOut (Function.update q k (q k ++ [v])) vs rs
  | vs, .take k :: rs => (q k).head?.toList ++ handedOut (Function.update q k (q k).tail) vs rs
  | _, _ => []

theorem Serves.handedOut_eq {q : Queues κ ν} {l : List (Entry κ ν)} (h : Serves q l) :
    allTaken l = handedOut q (allPushed l) (l.map Entry.req) := by
  induction l generalizing q with
  | nil => simp [allTaken, allPushed, handedOut]
  | cons e l ih =>
    obtain ⟨hok, hserves⟩ := h
    cases e with
    | push k v => exact ih hserves
    | pop k ans =>
      have hans : ans = (q k).head? := hok
      simp only [allTaken, List.map_cons, Entry.req, ih hserves, hans]
      cases hp : allPushed l <;> simp [allPushed, handedOut, hp, Entry.apply]

/-- Queues do not look at the values. -/
theorem handedOut_map {μ : Type} (f : ν → μ) (q : Queues κ ν) (vs : List ν)
    (rs : List (Req κ)) :
    handedOut (fun k => (q k).map f) (vs.map f) rs = (handedOut q vs rs).map f := by
  induction rs generalizing q vs with
  | nil => cases vs <;> simp [handedOut]
  | cons r rs ih =>
    have hupdate : ∀ k (xs : List ν), Function.update (fun k => (q k).map f) k (xs.map f) =
        fun k' => (Function.update q k xs k').map f := by
      intro k xs
      funext k'
      by_cases hk : k' = k
      · subst hk; simp
      · simp [hk]
    cases r with
    | put k =>
      cases vs with
      | nil => simp [handedOut]
      | cons v vs =>
        have hcons := hupdate k (q k ++ [v])
        rw [List.map_append] at hcons
        simp only [List.map_cons, handedOut]
        rw [← ih, ← hcons]
        rfl
    | take k =>
      have htail := hupdate k (q k).tail
      rw [List.map_tail] at htail
      have hhead : ((q k).map f).head?.toList = (q k).head?.toList.map f := by
        cases q k <;> rfl
      have hstep : ∀ ws : List ν, handedOut q ws (.take k :: rs) =
          (q k).head?.toList ++ handedOut (Function.update q k (q k).tail) ws rs := by
        intro ws; cases ws <;> rfl
      have hstep' : ∀ ws : List μ, handedOut (fun k => (q k).map f) ws (.take k :: rs) =
          ((q k).map f).head?.toList ++
            handedOut (Function.update (fun k => (q k).map f) k ((q k).map f).tail) ws rs := by
        intro ws; cases ws <;> rfl
      rw [hstep, hstep', List.map_append, ← ih, ← htail, hhead]

/-- A value that is taken was pushed before. -/
theorem Serves.pushed_before {pre post : List (Entry κ ν)} {k : κ} {v : ν}
    (h : Serves Queues.empty (pre ++ .pop k (some v) :: post)) : v ∈ pushed k pre := by
  rw [(serves_append.mp h).1.pushed_eq_empty k]
  refine List.mem_append_right _ ?_
  have hhead := h.answer
  cases hq : drain Queues.empty pre k with
  | nil => rw [hq] at hhead; exact absurd hhead (by simp)
  | cons w ws =>
    rw [hq] at hhead
    cases hhead
    simp

end

end Fifo

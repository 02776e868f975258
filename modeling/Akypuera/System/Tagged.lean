import Akypuera.Converter.Overflow
import Akypuera.System.Streams

/-!
# Merges that know where their events come from

A merge keeps each rank's own order, so every event of it *is* some record of its rank, and
whatever is known of that record can be attached to the event: the call it was recorded in,
or the number of its message. `TaggedMerge` is a merge with such tags, and every merge has
them (`Merged.exists_tags`).

What this is for: the sends under a triple all come from one rank and the receives all come
from one rank (`putTags_filed`, `takeTags_filed`), so the **order of the tags under a triple
is the order in two streams**, whatever the merge did.
-/

set_option autoImplicit false

namespace Akypuera
namespace System

open Converter Tracer Fifo
open Keys (Triple)

variable {τ : Type}

/-- The tagged events of one rank. -/
def ofRankTagged (tes : List (τ × Event)) (r : Nat) : List (τ × Event) :=
  tes.filter fun te => te.2.id1.toNat = r

/-- An event is read back from a record, with its tag. -/
def DecodesTagged (id : UInt64) (x : τ × Record) (te : τ × Event) : Prop :=
  x.1 = te.1 ∧ Event.Decodes id x.2 te.2

/-- `tes` merges the tagged streams of the ranks below `n`. -/
structure TaggedMerge (n : Nat) (streams : Nat → List (τ × Record)) (tes : List (τ × Event)) :
    Prop where
  ranks : ∀ te ∈ tes, te.2.id1.toNat < n
  streams : ∀ r < n, List.Forall₂ (DecodesTagged (UInt64.ofNat r)) (streams r)
    (ofRankTagged tes r)

variable {n : Nat} {streams : Nat → List (τ × Record)} {tes : List (τ × Event)}

theorem ofRank_tagged (tes : List (τ × Event)) (r : Nat) :
    ofRank (tes.map Prod.snd) r = (ofRankTagged tes r).map Prod.snd := by
  rw [ofRank, List.filter_map]
  rfl

/-- Without the tags it is a merge. -/
theorem TaggedMerge.merged (h : TaggedMerge n streams tes) :
    Merged n (fun r => (streams r).map Prod.snd) (tes.map Prod.snd) where
  ranks e he := by
    obtain ⟨te, hte, rfl⟩ := List.mem_map.mp he
    exact h.ranks te hte
  streams r hr := by
    rw [ofRank_tagged, List.forall₂_map_left_iff, List.forall₂_map_right_iff]
    exact (h.streams r hr).imp fun _ _ hd => hd.2

/-- Nobody else records anything. -/
theorem TaggedMerge.ofRank_eq_nil (h : TaggedMerge n streams tes) {r : Nat} (hr : ¬ r < n) :
    ofRankTagged tes r = [] := by
  refine List.filter_eq_nil_iff.mpr fun te hte heq => hr ?_
  rw [← of_decide_eq_true heq]
  exact h.ranks te hte

/-- Every merge has tags. -/
theorem Merged.exists_tags {es : List Event}
    (h : Merged n (fun r => (streams r).map Prod.snd) es) :
    ∃ tes, tes.map Prod.snd = es ∧ TaggedMerge n streams tes := by
  induction es generalizing streams with
  | nil =>
    refine ⟨[], rfl, fun te h => absurd h (by simp), ?_⟩
    intro r hr
    have hnil : streams r = [] := by
      have hr := h.streams r hr
      simpa [ofRank] using hr
    rw [hnil]
    exact List.Forall₂.nil
  | cons e es ih =>
    -- the first event takes the first record of its rank
    have hlt := h.ranks e (by simp)
    have hown := h.streams _ hlt
    rw [ofRank, List.filter_cons_of_pos (by simp)] at hown
    obtain ⟨x, xs, hx⟩ : ∃ x xs, streams e.id1.toNat = x :: xs := by
      cases hs : streams e.id1.toNat with
      | nil => rw [hs] at hown; cases hown
      | cons x xs => exact ⟨x, xs, rfl⟩
    rw [hx] at hown
    obtain ⟨hd, hrest⟩ := List.forall₂_cons.mp hown
    obtain ⟨tes, rfl, htes⟩ := @ih (Function.update streams e.id1.toNat xs)
      ⟨fun e' he' => h.ranks e' (by simp [he']), fun r hr => by
        by_cases hre : r = e.id1.toNat
        · subst hre
          rw [Function.update_self]
          exact hrest
        · rw [Function.update_of_ne hre]
          have hr := h.streams r hr
          rwa [ofRank, List.filter_cons_of_neg (by simpa using fun h => hre h.symm)] at hr⟩
    refine ⟨(x.1, e) :: tes, rfl, ?_, ?_⟩
    · intro te hte
      rcases List.mem_cons.mp hte with rfl | hte
      · exact hlt
      · exact htes.ranks te hte
    · intro r hr
      have hr' := htes.streams r hr
      by_cases hre : r = e.id1.toNat
      · subst hre
        rw [Function.update_self] at hr'
        rw [hx, ofRankTagged, List.filter_cons_of_pos (by simp)]
        exact List.Forall₂.cons ⟨rfl, hd⟩ hr'
      · rw [Function.update_of_ne hre] at hr'
        rwa [ofRankTagged, List.filter_cons_of_neg (by simpa using fun h => hre h.symm)]

/-- Tagged records, each with the rank that made it and the time it was made at, as events. -/
def taggedEvents (ms : List (τ × UInt64 × ℚ × Record)) : List (τ × Event) :=
  ms.map fun m => (m.1, .ofRecord m.2.1 m.2.2.1 m.2.2.2)

theorem taggedMerge_events {ms : List (τ × UInt64 × ℚ × Record)}
    (hranks : ∀ m ∈ ms, m.2.1.toNat < n)
    (hstreams : ∀ r < n, (ms.filter fun m => m.2.1.toNat = r).map (fun m => (m.1, m.2.2.2)) =
      streams r) : TaggedMerge n streams (taggedEvents ms) := by
  refine ⟨?_, ?_⟩
  · intro te hte
    obtain ⟨m, hm, rfl⟩ := List.mem_map.mp hte
    exact hranks m hm
  · intro r hr
    have hown : ofRankTagged (taggedEvents ms) r =
        taggedEvents (ms.filter fun m => m.2.1.toNat = r) := by
      rw [ofRankTagged, taggedEvents, List.filter_map]
      rfl
    rw [hown, ← hstreams r hr, taggedEvents, List.forall₂_map_left_iff,
      List.forall₂_map_right_iff, List.forall₂_same]
    intro m hm
    have hid : m.2.1 = UInt64.ofNat r := by
      rw [← (by simpa using (List.mem_filter.mp hm).2 : m.2.1.toNat = r), UInt64.ofNat_toNat]
    rw [← hid]
    exact ⟨rfl, Event.decodes_ofRecord _ _ _⟩

/-! ## The individual operations of a stream -/

/-- The individual operations of some records. -/
def operations (id : UInt64) (rs : List Record) : List (Req Link) :=
  rs.flatMap fun r => individual (.ofRecord id 0 r)

/-- The same with the records' tags. -/
def recordRequests (id : UInt64) (xs : List (τ × Record)) : List (τ × Req Link) :=
  xs.flatMap fun x => (individual (.ofRecord id 0 x.2)).map (x.1, ·)

/-- What an event asks for depends on its record only. -/
theorem individual_decodes {id : UInt64} {r : Record} {e : Event} (hp : HasPeer r)
    (hd : Event.Decodes id r e) : individual e = individual (.ofRecord id 0 r) := by
  have htype : (Event.ofRecord id 0 r).type = e.type := hd.type.symm
  cases hlink : (arm e.type).isLink with
  | false => rw [individual_eq_nil hlink, individual_eq_nil (by rw [htype]; exact hlink)]
  | true =>
    have hpos : 0 < r.u32.length := by
      refine List.length_pos_of_ne_nil (hp ?_)
      rw [← hd.type]
      exact hlink
    have hpeer : e.vUint32 0 = (Event.ofRecord id 0 r).vUint32 0 := by
      rw [hd.vUint32 0 hpos, (Event.decodes_ofRecord id 0 r).vUint32 0 hpos]
    have hid : e.id1 = (Event.ofRecord id 0 r).id1 := hd.id1
    unfold individual others
    rw [htype, hpeer, hid]

theorem requests_ofRank (h : TaggedMerge n streams tes) {r : Nat} (hr : r < n)
    (hpeer : ∀ x ∈ streams r, HasPeer x.2) :
    requests (ofRankTagged tes r) = recordRequests (UInt64.ofNat r) (streams r) := by
  have hstream := h.streams r hr
  unfold requests recordRequests
  generalize ofRankTagged tes r = own at hstream ⊢
  generalize streams r = xs at hstream hpeer ⊢
  induction hstream with
  | nil => rfl
  | @cons x te xs tes hd _ ih =>
    rw [List.flatMap_cons, List.flatMap_cons, ih fun y hy => hpeer y (by simp [hy]),
      individual_decodes (hpeer x (by simp)) hd.2, hd.1]

/-! ## The two ranks of a triple -/

/-- The number of a triple's rank. -/
def rankOf (i : Int32) : Nat := i.toUInt32.toNat

theorem rankOf_toInt {id : UInt64} (h : id.toNat < 2 ^ 32) : rankOf (toInt id) = id.toNat := by
  unfold rankOf toInt
  simpa using h

theorem rankOf_ofNat {r : Nat} (hr : r < 2 ^ 31) : rankOf (toInt (.ofNat r)) = r := by
  rw [rankOf_toInt] <;> simp <;> omega

/-- What an event puts or takes, with its tag, as it is filed. -/
theorem filed_cons (te : τ × Event) (tes : List (τ × Event)) :
    filed (te :: tes) =
      (individual te.2).map (fun r => (te.1, r.rekey Link.triple)) ++ filed tes := by
  simp [filed, requests, Function.comp_def]

/-- What a rank's stream puts and takes is filed in its order. -/
theorem filed_ofRank (h : TaggedMerge n streams tes) {r : Nat} (hr : r < n)
    (hpeer : ∀ x ∈ streams r, HasPeer x.2) :
    filed (ofRankTagged tes r) = (recordRequests (UInt64.ofNat r) (streams r)).map
      fun x => (x.1, x.2.rekey Link.triple) := by
  rw [filed, requests_ofRank h hr hpeer]

/-- Nothing of a tag is received before it is sent. -/
def SendsFirst (tes : List (τ × Event)) : Prop :=
  tes.Pairwise fun x y =>
    x.1 = y.1 → (arm x.2.type).receives = true → (arm y.2.type).sends = false

instance [DecidableEq τ] (tes : List (τ × Event)) : Decidable (SendsFirst tes) :=
  inferInstanceAs (Decidable (List.Pairwise _ _))

theorem SendsFirst.causal (h : SendsFirst tes) : Causal (filed tes) := by
  -- a take and a later put with its tag, of one event or of two
  have hno : ∀ {x y : τ × Event}, (x.1 = y.1 → (arm x.2.type).receives = true →
      (arm y.2.type).sends = false) → ∀ a ∈ (individual x.2).map (x.1, ·),
      ∀ b ∈ (individual y.2).map (y.1, ·), a.1 = b.1 →
      ∀ k, a.2.rekey Link.triple = .take k → b.2.rekey Link.triple ≠ .put k := by
    intro x y hxy a ha b hb htag k htake hput
    obtain ⟨p, hp, rfl⟩ := List.mem_map.mp ha
    obtain ⟨q, hq, rfl⟩ := List.mem_map.mp hb
    cases p with
    | put l => exact absurd htake (by simp [Req.rekey])
    | take l =>
      cases q with
      | take l' => exact absurd hput (by simp [Req.rekey])
      | put l' =>
        have hsend := sends_of_put hq
        rw [hxy htag (receives_of_take hp)] at hsend
        exact absurd hsend (by simp)
  unfold Causal filed requests
  rw [List.pairwise_map, List.pairwise_flatMap]
  refine ⟨fun te _ => ?_, h.imp fun hxy a ha b hb => hno hxy a ha b hb⟩
  apply List.pairwise_of_forall_mem_list
  intro a ha b hb
  exact hno (fun _ => not_sends_of_receives) a ha b hb

section
variable (hid : ∀ te ∈ tes, te.2.id1.toNat < 2 ^ 32)
include hid

/-- **The sends of a triple are one rank's.** -/
theorem putTags_filed (k : Triple) :
    putTags k (filed tes) = putTags k (filed (ofRankTagged tes (rankOf k.2.1))) := by
  induction tes with
  | nil => rfl
  | cons te tes ih =>
    have ih := ih fun te' hte' => hid te' (by simp [hte'])
    by_cases hr : te.2.id1.toNat = rankOf k.2.1
    · rw [ofRankTagged, List.filter_cons_of_pos (by simpa using hr), filed_cons, filed_cons,
        putTags_append, putTags_append, ih]
      rfl
    · rw [ofRankTagged, List.filter_cons_of_neg (by simpa using hr), filed_cons, putTags_append]
      have hnone : putTags k ((individual te.2).map fun r => (te.1, r.rekey Link.triple)) = [] := by
        refine putTags_eq_nil fun x hx hput => hr ?_
        obtain ⟨r, hmem, rfl⟩ := List.mem_map.mp hx
        cases r with
        | take l => exact absurd hput (by simp [Req.rekey])
        | put l =>
          have hsrc : toInt l.2.1 = k.2.1 := by
            have hk : Link.triple l = k := by simpa [Req.rekey] using hput
            rw [← hk]
            rfl
          have hown : l.2.1 = te.2.id1 := actor_individual hmem
          rw [← hsrc, hown, rankOf_toInt (hid te (by simp))]
      rw [hnone, ih]
      rfl

/-- **The receives of a triple are one rank's.** -/
theorem takeTags_filed (k : Triple) :
    takeTags k (filed tes) = takeTags k (filed (ofRankTagged tes (rankOf k.2.2))) := by
  induction tes with
  | nil => rfl
  | cons te tes ih =>
    have ih := ih fun te' hte' => hid te' (by simp [hte'])
    by_cases hr : te.2.id1.toNat = rankOf k.2.2
    · rw [ofRankTagged, List.filter_cons_of_pos (by simpa using hr), filed_cons, filed_cons,
        takeTags_append, takeTags_append, ih]
      rfl
    · rw [ofRankTagged, List.filter_cons_of_neg (by simpa using hr), filed_cons, takeTags_append]
      have hnone :
          takeTags k ((individual te.2).map fun r => (te.1, r.rekey Link.triple)) = [] := by
        refine takeTags_eq_nil fun x hx htake => hr ?_
        obtain ⟨r, hmem, rfl⟩ := List.mem_map.mp hx
        cases r with
        | put l => exact absurd htake (by simp [Req.rekey])
        | take l =>
          have hdst : toInt l.2.2 = k.2.2 := by
            have hk : Link.triple l = k := by simpa [Req.rekey] using htake
            rw [← hk]
            rfl
          have hown : l.2.2 = te.2.id1 := actor_individual hmem
          rw [← hdst, hown, rankOf_toInt (hid te (by simp))]
      rw [hnone, ih]
      rfl

end

/-! ## Records tagged with their calls -/

/-- The records of a process, each with the number of the call it was made in. Those of
    `MPI_Init` and `MPI_Finalize` have none. -/
def callStream (cs : List Call) : List (Option Nat × Record) :=
  mpiInitRecords.map (none, ·) ++
    ((runCalls Library.init cs).zipIdx.flatMap fun x => x.1.map (some x.2, ·)) ++
    mpiFinalize.records.map (none, ·)

theorem map_snd_callStream (cs : List Call) : (callStream cs).map Prod.snd = stream cs := by
  have hcalls : ((runCalls Library.init cs).zipIdx.flatMap fun x =>
      x.1.map ((some x.2 : Option Nat), ·)).map Prod.snd = (runCalls Library.init cs).flatten := by
    calc _ = (runCalls Library.init cs).zipIdx.flatMap Prod.fst := by
          rw [List.map_flatMap]
          exact List.flatMap_congr fun x _ => by simp
      _ = ((runCalls Library.init cs).zipIdx.map Prod.fst).flatten := by rw [List.flatMap_def]
      _ = (runCalls Library.init cs).flatten := by rw [List.zipIdx_map_fst]
  rw [callStream, List.map_append, List.map_append, hcalls]
  rfl

/-- Only the calls in between ask for anything. -/
theorem recordRequests_callStream (id : UInt64) (cs : List Call) :
    recordRequests id (callStream cs) =
      (runCalls Library.init cs).zipIdx.flatMap fun x =>
        (operations id x.1).map (some x.2, ·) := by
  have hplain : ∀ rs : List Record, (∀ r ∈ rs, (arm r.type).isLink = false) →
      recordRequests id (rs.map ((none : Option Nat), ·)) = [] := by
    intro rs hrs
    apply List.flatMap_eq_nil_iff.mpr
    intro x hx
    obtain ⟨r, hr, rfl⟩ := List.mem_map.mp hx
    rw [individual_eq_nil (hrs r hr)]
    rfl
  have hinit := hplain mpiInitRecords (by decide +kernel)
  have hfinal := hplain mpiFinalize.records (by decide +kernel)
  unfold recordRequests at hinit hfinal ⊢
  rw [callStream, List.flatMap_append, List.flatMap_append, hinit, hfinal, List.append_nil,
    List.nil_append, List.flatMap_assoc]
  apply List.flatMap_congr
  intro x _
  rw [operations, List.map_flatMap, List.flatMap_map]

end System
end Akypuera

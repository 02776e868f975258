import Akypuera.Lib.Related
import Akypuera.Tracer.Wrappers

/-!
# Traces of several processes

The converter reads the events of all processes in one sequence, which `librastro` merges by
time. Nothing about the merge is assumed but that it keeps **each process's own order**:
`Merged` says that the events of rank `r`, taken out of the sequence, are the records of
rank `r`, in order, each decoded with its own fields.
-/

set_option autoImplicit false

namespace Akypuera
namespace System

open Tracer

/-- The events of one rank. -/
def ofRank (es : List Event) (r : Nat) : List Event := es.filter fun e => e.id1.toNat = r

/-- `es` merges the streams of the ranks below `n`. -/
structure Merged (n : Nat) (streams : Nat → List Record) (es : List Event) : Prop where
  ranks : ∀ e ∈ es, e.id1.toNat < n
  streams : ∀ r < n, List.Forall₂ (Event.Decodes (UInt64.ofNat r)) (streams r) (ofRank es r)

/-- Every event is one of its rank's records. -/
theorem Merged.mem {n : Nat} {streams : Nat → List Record} {es : List Event}
    (h : Merged n streams es) {e : Event} (he : e ∈ es) :
    ∃ record ∈ streams e.id1.toNat, Event.Decodes e.id1 record e := by
  have hlt := h.ranks e he
  have hmem : e ∈ ofRank es e.id1.toNat := List.mem_filter.mpr ⟨he, by simp⟩
  obtain ⟨record, hrecord, hdec⟩ := (h.streams _ hlt).exists_of_mem_right hmem
  exact ⟨record, hrecord, by simpa using hdec⟩

/-- Records, each with the rank that made it and the time it was made at, as events. -/
def events (ms : List (UInt64 × ℚ × Record)) : List Event :=
  ms.map fun m => .ofRecord m.1 m.2.1 m.2.2

theorem ofRank_events (ms : List (UInt64 × ℚ × Record)) (r : Nat) :
    ofRank (events ms) r = events (ms.filter fun m => m.1.toNat = r) := by
  induction ms with
  | nil => rfl
  | cons m ms ih =>
    have hcons : events (m :: ms) = .ofRecord m.1 m.2.1 m.2.2 :: events ms := rfl
    by_cases hm : m.1.toNat = r
    · rw [List.filter_cons_of_pos (by simp [hm]), hcons, ofRank,
        List.filter_cons_of_pos (by simp [Event.ofRecord, hm])]
      exact congrArg _ ih
    · rw [List.filter_cons_of_neg (by simp [hm]), hcons, ofRank,
        List.filter_cons_of_neg (by simp [Event.ofRecord, hm])]
      exact ih

/-- Putting the records of the ranks in any order, each rank's own kept, makes a merge. -/
theorem merged_events {n : Nat} {streams : Nat → List Record} {ms : List (UInt64 × ℚ × Record)}
    (hranks : ∀ m ∈ ms, m.1.toNat < n)
    (hstreams : ∀ r < n, (ms.filter fun m => m.1.toNat = r).map (·.2.2) = streams r) :
    Merged n streams (events ms) := by
  refine ⟨?_, ?_⟩
  · intro e he
    obtain ⟨m, hm, rfl⟩ := List.mem_map.mp he
    exact hranks m hm
  · intro r hr
    rw [ofRank_events, ← hstreams r hr, events, List.forall₂_map_left_iff,
      List.forall₂_map_right_iff, List.forall₂_same]
    intro m hm
    have hid : m.1 = UInt64.ofNat r := by
      rw [← (by simpa using (List.mem_filter.mp hm).2 : m.1.toNat = r), UInt64.ofNat_toNat]
    rw [← hid]
    exact Event.decodes_ofRecord _ _ _

end System
end Akypuera

import Akypuera.System.Collectives
import Akypuera.System.Receives

/-!
# Other communicators

The library writes ranks of `MPI_COMM_WORLD` into the events, except where it does not: the
root of a collective writes the *size* of its communicator, and the waits write the source as
the status has it, which is a rank of the request's communicator. The converter knows of no
communicator.

What follows is stated against the communicator's members: a root's events stand for messages
between it and the ranks below the size, so **a collective is linked right on the communicators
whose members are the first ranks of the world** (`collective_pairs_iff`), in whatever order.
-/

set_option autoImplicit false

namespace Akypuera
namespace System

open Code Converter Tracer Fifo

/-- A communicator: the world ranks of its members, in the order of their ranks in it. -/
structure Communicator where
  members : List Nat
  nodup : members.Nodup
  small : ∀ w ∈ members, w < 2 ^ 31
  fits : members.length < 2 ^ 31

namespace Communicator

variable (g : Communicator)

/-- `MPI_Group_translate_ranks` to the group of `MPI_COMM_WORLD`. What is no rank stays. -/
def world (rank : Int32) : Int32 :=
  match g.members[rank.toUInt32.toNat]? with
  | some w => .ofNat w
  | none => rank

/-- The communicator as its member `i` sees it. -/
def comm (i : Nat) : Comm :=
  { rank := .ofNat i, size := .ofNat g.members.length, world := g.world }

variable {g} {i : Nat} (hi : i < g.members.length)
include hi

theorem lt_of_index : i < 2 ^ 31 := Nat.lt_trans hi g.fits

theorem world_ofNat : g.world (.ofNat i) = .ofNat g.members[i] := by
  have hlt := lt_of_index hi
  have hindex : (Int32.ofNat i).toUInt32.toNat = i := by
    simp
    omega
  rw [world, hindex, List.getElem?_eq_getElem hi]

theorem member_lt : g.members[i] < 2 ^ 31 := g.small _ (List.getElem_mem hi)

end Communicator

/-! ## Collectives -/

theorem flatMap_one {β : Type} {xs : List Nat} (hnodup : xs.Nodup) {w : Nat} (hw : w ∈ xs)
    (f : Nat → List β) : xs.flatMap (fun m => if m = w then f m else []) = f w := by
  induction xs with
  | nil => exact absurd hw (by simp)
  | cons x xs ih =>
    obtain ⟨hx, hnodup⟩ := List.nodup_cons.mp hnodup
    by_cases hxw : x = w
    · subst hxw
      have hnone : xs.flatMap (fun m => if m = x then f m else []) = [] :=
        List.flatMap_eq_nil_iff.mpr fun m hm => if_neg fun heq : m = x => hx (heq ▸ hm)
      simp [hnone]
    · have hw : w ∈ xs := (List.mem_cons.mp hw).resolve_left fun h => hxw h.symm
      simp [hxw, ih hnodup hw]

/-- The pairs of ranks that something is put for. -/
def putPairs (rs : List (Req Link)) : List (UInt64 × UInt64) :=
  rs.filterMap fun
    | .put l => some l.2
    | .take _ => none

/-- The pairs of ranks that something is taken for. -/
def takePairs (rs : List (Req Link)) : List (UInt64 × UInt64) :=
  rs.filterMap fun
    | .put _ => none
    | .take l => some l.2

namespace Communicator

variable (g : Communicator) (kind : CollectiveKind) {root : Nat} (hroot : root < g.members.length)

/-- What the converter does for the events that the members of a communicator record in a
    collective call. -/
def asks (root : Nat) (count tsize : Nat → Int32) (tr : Nat → Library) : List (Req Link) :=
  g.members.zipIdx.flatMap fun x => operations (.ofNat x.1)
    ((kind.call (g.comm x.2) (count x.2) (tsize x.2) (.ofNat root)).run (tr x.2)).1

/-- The message between the root and another rank, as a pair of ranks. -/
def pair (w s : Nat) : UInt64 × UInt64 :=
  if kind.down then (.ofNat w, .ofNat s) else (.ofNat s, .ofNat w)

/-- The pairs of a collective: the root and each other member. -/
def pairs (w : Nat) : List (UInt64 × UInt64) := (g.members.filter (· ≠ w)).map (pair kind w)

/-- The pairs that the root's event stands for: the root and each other rank below the size. -/
def rootPairs (w : Nat) : List (UInt64 × UInt64) :=
  ((List.range g.members.length).filter (· ≠ w)).map (pair kind w)

theorem putPairs_ends (size id w : Nat) (isRoot : Prop) [Decidable isRoot] :
    putPairs (kind.ends size id w isRoot) =
      if kind.down then
        if isRoot then ((List.range size).filter (· ≠ id)).map (pair kind id) else []
      else if isRoot then [] else [pair kind w id] := by
  unfold CollectiveKind.ends putPairs pair
  cases kind.down <;> by_cases h : isRoot <;> simp [h]

theorem takePairs_ends (size id w : Nat) (isRoot : Prop) [Decidable isRoot] :
    takePairs (kind.ends size id w isRoot) =
      if kind.down then if isRoot then [] else [pair kind w id]
      else if isRoot then ((List.range size).filter (· ≠ id)).map (pair kind id) else [] := by
  unfold CollectiveKind.ends takePairs pair
  cases kind.down <;> by_cases h : isRoot <;> simp [h]

theorem pair_inj {w s s' : Nat} (hs : s < 2 ^ 31) (hs' : s' < 2 ^ 31)
    (h : pair kind w s = pair kind w s') : s = s' := by
  have hrank : UInt64.ofNat s = UInt64.ofNat s' := by
    unfold pair at h
    cases hdown : kind.down with
    | true =>
      rw [hdown] at h
      exact congrArg Prod.snd h
    | false =>
      rw [hdown] at h
      exact congrArg Prod.fst h
  have hnat := congrArg UInt64.toNat hrank
  simp at hnat
  omega

include hroot

/-- What the members ask for. -/
theorem asks_eq (count tsize : Nat → Int32) (tr : Nat → Library) :
    g.asks kind root count tsize tr = g.members.flatMap fun m =>
      kind.ends g.members.length m g.members[root] (m = g.members[root]) := by
  have hmembers : ∀ x ∈ g.members.zipIdx, ∃ h : x.2 < g.members.length, g.members[x.2] = x.1 := by
    intro x hx
    exact List.getElem?_eq_some_iff.mp (List.mem_zipIdx_iff_getElem?.mp hx)
  have hone : g.asks kind root count tsize tr = g.members.zipIdx.flatMap fun x =>
      kind.ends g.members.length x.1 g.members[root] (x.1 = g.members[root]) := by
    apply List.flatMap_congr
    intro x hx
    obtain ⟨hi, hx⟩ := hmembers x hx
    -- a member is the root when its world rank is the root's
    have hiff : x.2 = root ↔ x.1 = g.members[root] := by
      rw [← hx, g.nodup.getElem_inj_iff]
    rw [operations_member rfl rfl (world_ofNat hroot) g.fits (lt_of_index hi) (lt_of_index hroot)
      (hx ▸ member_lt hi) (member_lt hroot)]
    simp only [CollectiveKind.ends, hiff]
  have hfst : ∀ f : Nat → List (Req Link),
      g.members.zipIdx.flatMap (fun x => f x.1) = g.members.flatMap f := by
    intro f
    conv_rhs => rw [← List.zipIdx_map_fst 0 g.members, List.flatMap_map]
  exact hone.trans (hfst fun m =>
    kind.ends g.members.length m g.members[root] (m = g.members[root]))

/-- The root's side and the others' side of a collective, as pairs of ranks. -/
theorem pairs_asks (count tsize : Nat → Int32) (tr : Nat → Library) :
    (putPairs (g.asks kind root count tsize tr), takePairs (g.asks kind root count tsize tr)) =
      if kind.down then (g.rootPairs kind g.members[root], g.pairs kind g.members[root])
      else (g.pairs kind g.members[root], g.rootPairs kind g.members[root]) := by
  have hmem : g.members[root] ∈ g.members := List.getElem_mem hroot
  have hroots := flatMap_one g.nodup hmem fun m =>
    ((List.range g.members.length).filter (· ≠ m)).map (pair kind m)
  have hothers : g.members.flatMap (fun m =>
      if m = g.members[root] then [] else [pair kind g.members[root] m]) =
        g.pairs kind g.members[root] := by
    have hite := flatMap_ite_eq_map_filter (· ≠ g.members[root]) (pair kind g.members[root]) g.members
    rw [pairs, ← hite]
    exact List.flatMap_congr fun m _ => by split <;> simp_all
  have hputs : putPairs (g.asks kind root count tsize tr) = g.members.flatMap fun m =>
      putPairs (kind.ends g.members.length m g.members[root] (m = g.members[root])) := by
    rw [asks_eq g kind hroot]
    exact List.filterMap_flatMap
  have htakes : takePairs (g.asks kind root count tsize tr) = g.members.flatMap fun m =>
      takePairs (kind.ends g.members.length m g.members[root] (m = g.members[root])) := by
    rw [asks_eq g kind hroot]
    exact List.filterMap_flatMap
  simp only [putPairs_ends, takePairs_ends] at hputs htakes
  rw [hputs, htakes]
  cases kind.down with
  | true => exact Prod.ext hroots hothers
  | false => exact Prod.ext hothers hroots

/-- **The two agree when the members are the first ranks.** -/
theorem rootPairs_perm_iff :
    (g.rootPairs kind g.members[root]).Perm (g.pairs kind g.members[root]) ↔
      ∀ w ∈ g.members, w < g.members.length := by
  have hmem : g.members[root] ∈ g.members := List.getElem_mem hroot
  constructor
  · intro hperm w hw
    by_contra hge
    by_cases hwr : w = g.members[root]
    · -- the root is not among the ranks its event stands for, so there is one too many
      have hall : (List.range g.members.length).filter (· ≠ g.members[root]) =
          List.range g.members.length := by
        apply List.filter_eq_self.mpr
        intro s hs
        have hs := List.mem_range.mp hs
        simp only [ne_eq, decide_eq_true_eq]
        omega
      have hfewer : (g.members.filter (· ≠ g.members[root])).length < g.members.length :=
        List.length_filter_lt_length_iff_exists.mpr ⟨_, hmem, by simp⟩
      have hlen := hperm.length_eq
      rw [rootPairs, pairs, hall, List.length_map, List.length_map, List.length_range] at hlen
      omega
    · have hpair : pair kind g.members[root] w ∈ g.pairs kind g.members[root] :=
        List.mem_map.mpr ⟨w, List.mem_filter.mpr ⟨hw, by simpa using hwr⟩, rfl⟩
      obtain ⟨s, hs, heq⟩ := List.mem_map.mp (hperm.mem_iff.mpr hpair)
      have hs := List.mem_range.mp (List.mem_filter.mp hs).1
      rw [pair_inj kind (Nat.lt_trans hs g.fits) (g.small w hw) heq] at hs
      exact hge hs
  · intro h
    have hsub : g.members.Subperm (List.range g.members.length) :=
      g.nodup.subperm fun w hw => List.mem_range.mpr (h w hw)
    have hall : g.members.Perm (List.range g.members.length) :=
      hsub.perm_of_length_le (by simp)
    exact ((hall.filter _).map _).symm

end Communicator

/-- **Collectives on any communicator**: when all members of a communicator make a collective
    call, the pairs of ranks that keys are put for and those that keys are asked for agree, and
    are the root and each other member, just when every member's rank in the world is below the
    size of the communicator. -/
theorem collective_pairs_iff (g : Communicator) (kind : CollectiveKind) {root : Nat}
    (hroot : root < g.members.length) (count tsize : Nat → Int32) (tr : Nat → Library) :
    ((putPairs (g.asks kind root count tsize tr)).Perm
        (takePairs (g.asks kind root count tsize tr)) ∧
      (putPairs (g.asks kind root count tsize tr)).Perm (g.pairs kind g.members[root])) ↔
      ∀ w ∈ g.members, w < g.members.length := by
  have hpairs := g.pairs_asks kind hroot count tsize tr
  rw [← g.rootPairs_perm_iff kind hroot]
  cases hdown : kind.down with
  | true =>
    rw [hdown, if_pos rfl, Prod.mk.injEq] at hpairs
    rw [hpairs.1, hpairs.2]
    exact and_self_iff
  | false =>
    rw [hdown, if_neg (by simp), Prod.mk.injEq] at hpairs
    rw [hpairs.1, hpairs.2]
    exact ⟨fun h => h.1.symm, fun h => ⟨h.symm, List.Perm.refl _⟩⟩

/-- Ranks 0 and 1 of the world, the other way round. -/
def swappedComm : Communicator := ⟨[1, 0], by decide, by decide, by decide⟩

theorem collective_pairs_iff_swappedComm :
    let rs := swappedComm.asks .gather 0 (fun _ => 1) (fun _ => 4) fun _ => Library.init
    (putPairs rs).Perm (takePairs rs) ∧ (putPairs rs).Perm [(0, 1)] :=
  (collective_pairs_iff swappedComm .gather (show 0 < 2 by decide) (fun _ => 1) (fun _ => 4)
    fun _ => Library.init).mpr (by decide)

/-- Ranks 0 and 2 of the world. -/
def splitComm : Communicator := ⟨[0, 2], by decide, by decide, by decide⟩

/-- A broadcast puts a key for rank 1 of the world, which is no member, and rank 2 asks for
    one. -/
theorem not_collective_pairs :
    let rs := splitComm.asks .bcast 0 (fun _ => 1) (fun _ => 4) fun _ => Library.init
    putPairs rs = [(0, 1)] ∧ takePairs rs = [(0, 2)] ∧ ¬ (putPairs rs).Perm (takePairs rs) := by
  decide +kernel

/-! ## Sources of messages -/

/-- The communicator that member `me` gives to `MPI_Recv`. The waits are not given any. -/
def Op.On (g : Communicator) (me : Nat) : Op → Prop
  | .recv comm _ _ _ => comm = g.comm me
  | _ => True

/-- The blocking receive. -/
def Op.IsRecv : Op → Prop
  | .recv _ _ _ _ => True
  | _ => False

/-- What `MPI_Recv` shows is translated, what the waits show is not. -/
theorem shown_on {g : Communicator} {me : Nat} {op : Op} (hop : op.On g me) {i : Nat}
    (hi : i < g.members.length) :
    op.IsRecv ∧ op.shown (.ofNat i) = .ofNat g.members[i] ∨
      ¬ op.IsRecv ∧ op.shown (.ofNat i) = .ofNat i := by
  cases op with
  | recv comm count tsize source =>
    cases hop
    exact .inl ⟨trivial, Communicator.world_ofNat hi⟩
  | _ => exact .inr ⟨id, rfl⟩

/-- **Who a message is recorded to come from.** Any message that `MPI_Recv` or a wait receives
    and records is recorded; and where it comes from rank `i` of a communicator, whichever the call
    was made on, its sender's event is filed under the sender's rank in the world, and that is the
    source that is recorded just when the receive is an `MPI_Recv`, or the sender's two ranks are the
    same. -/
theorem recorded_sources (mpi : Mpi) (ops : List Op) :
    ∀ s ∈ history mpi ops, ∀ m ∈ s.op.received s.before, m ∈ s.op.named mpi s.before →
      rstEventI akyPtpRecv (s.op.shown m.2).toUInt32 ∈ s.records ∧
      ∀ (g : Communicator) (me : Nat) (_ : me < g.members.length), s.op.On g me →
        ∀ (i : Nat) (hi : i < g.members.length), m.2 = .ofNat i →
          (∀ (sending : Sending) mark, sending.comm = g.comm i → sending.dest = .ofNat me →
            individual (.ofRecord (.ofNat g.members[i]) 0 (sending.message mark)) =
              [.put (.ptp, .ofNat g.members[i], .ofNat g.members[me])]) ∧
          (s.op.shown m.2 = .ofNat g.members[i] ↔ s.op.IsRecv ∨ g.members[i] = i) := by
  intro s hs m hreceived hnamed
  refine ⟨?_, ?_⟩
  · have hrecord := record_of_named s.op hreceived hnamed
    rw [← run_messages agrees_init s hs] at hrecord
    exact (List.mem_filter.mp hrecord).1
  · intro g me hme hop i hi hm
    refine ⟨?_, ?_⟩
    · intro sending mark hcomm hdest
      rw [Sending.message, individual_ptpSend, hcomm, hdest, akyTranslateRank]
      show [Req.put (Family.ptp, _, (g.world (.ofNat me)).toUInt32.toUInt64)] = _
      rw [Communicator.world_ofNat hme, toUInt64_ofNat (Communicator.member_lt hme)]
    · rw [hm]
      rcases shown_on hop hi with ⟨hrecv, hshown⟩ | ⟨hrecv, hshown⟩
      · exact ⟨fun _ => Or.inl hrecv, fun _ => hshown⟩
      · rw [hshown]
        refine ⟨fun heq => Or.inr ?_, fun h => ?_⟩
        · exact ofNat_inj (Communicator.member_lt hi) (Communicator.lt_of_index hi) heq.symm
        · rw [h.resolve_left hrecv]

/-- Rank 0 receives from the other member of `splitComm`, blocking. -/
def recvSplit : List Op := [.recv (splitComm.comm 0) 1 4 (some 1)]

theorem recorded_sources_recvSplit : ∃ s ∈ history mpich recvSplit,
    ∃ m ∈ s.op.received s.before, rstEventI akyPtpRecv 2 ∈ s.records ∧ s.op.shown m.2 = 2 := by
  obtain ⟨hrecord, hsource⟩ := recorded_sources mpich recvSplit _ (List.mem_singleton.mpr rfl) (0, 1)
    (List.mem_singleton.mpr rfl) (List.mem_singleton.mpr rfl)
  obtain ⟨-, hiff⟩ := hsource splitComm 0 (by decide) rfl 1 (by decide) rfl
  have hshown := hiff.mpr (Or.inl trivial)
  refine ⟨_, List.mem_singleton.mpr rfl, (0, 1), List.mem_singleton.mpr rfl, ?_, hshown⟩
  rwa [hshown] at hrecord

/-- The same message, not blocking. -/
def irecvWaitSplit : List Op := [.irecv 1 4 (some 1) 0, .wait 0 fun _ => 0]

/-- `MPI_Wait` records rank 1, which is rank 2 in the world. -/
theorem not_recorded_sources :
    ((history mpich irecvWaitSplit).map fun s => ofType akyPtpRecv s.records) =
        [[], [rstEventI akyPtpRecv 1]] ∧
      (history mpich irecvWaitSplit).map (fun s => s.op.named mpich s.before) = [[], [(0, 1)]] ∧
      splitComm.world 1 = 2 := by
  decide +kernel

end System
end Akypuera

import Akypuera.Converter.Drawn
import Akypuera.Converter.Overflow
import Akypuera.System.Validity

/-!
# The picture does not depend on the merge

`librastro` merges the events of the ranks by time, and events of different ranks at the same time
may come in either order. The keys in the trace depend on that order, and so may the lines between
them. **What the trace shows does not**: two merges of the same events, neither of which misses a
receive, give every rank the same containers and states, extra fields included, and the same arrows
between the ranks, whatever the size of the key table is (`merges_agree`).
-/

set_option autoImplicit false

namespace Akypuera
namespace System

open CText Code Converter Fifo
open Keys (Triple IntKeys)

variable {args : Arguments} {es es' : List Event}

/-- The same events for every rank, in the same order. -/
def SameOrders (es es' : List Event) : Prop := ∀ r, ofRank es r = ofRank es' r

theorem SameOrders.perm (h : SameOrders es es') : es.Perm es' :=
  List.perm_of_filter_eq (fun e : Event => e.id1.toNat) h

/-- Two events in a row that are of different ranks may come in either order. -/
theorem SameOrders.swap (es es' : List Event) {e e' : Event} (h : e.id1.toNat ≠ e'.id1.toNat) :
    SameOrders (es ++ e :: e' :: es') (es ++ e' :: e :: es') := by
  intro r
  rw [ofRank, ofRank, List.filter_append, List.filter_append]
  by_cases hr : e.id1.toNat = r
  · have hr' : ¬ e'.id1.toNat = r := fun hr' => h (hr.trans hr'.symm)
    simp [hr, hr']
  · simp [hr, List.filter_cons]

/-! ## Containers and states -/

/-- The containers and states of a rank in the trace. -/
def ownLines (trace : List Paje) (id : UInt64) : List Paje :=
  plain (trace.filter fun p => p.container = mpiProcess id)

theorem ownLines_append (ps qs : List Paje) (id : UInt64) :
    ownLines (ps ++ qs) id = ownLines ps id ++ ownLines qs id := by
  rw [ownLines, List.filter_append, plain_append]
  rfl

theorem ownLines_eq_plain (ps : List Paje) (id : UInt64) :
    ownLines ps id = (plain ps).filter fun p => p.container = mpiProcess id :=
  List.filter_comm _ _ ps

/-- A round shows its event to its rank, and nothing to another. -/
theorem ownLines_round {st st' : State} {e : Event} {outs : List Out}
    (h : step args st e = some (st', outs)) (id : UInt64) :
    ownLines (pajes outs) id = if e.id1 = id then shown args e else [] := by
  obtain ⟨ps, hshows, hps⟩ := step_shows h
  have hroot : ownLines (rootOf st e) id = [] := by
    have hne : sRoot ≠ mpiProcess id := (mpiProcess_ne_root id).symm
    unfold rootOf
    split <;> simp [ownLines, plain, Paje.container, hne]
  rw [hps, ownLines_append, hroot, List.nil_append, ownLines_eq_plain, hshows.plain]
  have hcontainer : ∀ p ∈ shown args e, p.container = mpiProcess e.id1 := by
    intro p hp
    rw [← hshows.plain] at hp
    exact hshows.wrote.container p (List.mem_filter.mp hp).1
  split
  · rename_i hid
    exact List.filter_eq_self.mpr fun p hp => by simp [hcontainer p hp, hid]
  · rename_i hid
    refine List.filter_eq_nil_iff.mpr fun p hp => ?_
    rw [hcontainer p hp, decide_eq_true_eq]
    exact fun heq => hid (mpiProcess_inj heq)

/-- **What a rank's container shows depends on the rank's events alone.** -/
theorem ownLines_trace {size : Option Nat}
    (hrounds : (convert args size es).rounds.map Prod.fst = es) (id : UInt64) :
    ownLines (convert args size es).trace id = (ofRank es id.toNat).flatMap (shown args) := by
  have hstep := convert_step args size es
  have hlast : ownLines (convert args size es).trace id =
      ownLines (pajes ((convert args size es).rounds.flatMap Prod.snd)) id := by
    have hne : sRoot ≠ mpiProcess id := (mpiProcess_ne_root id).symm
    rw [RunOf.trace_eq, RunOf.outs, pajes_append, ownLines_append]
    split <;> simp [pajes, ownLines, plain, Paje.container, hne]
  rw [hlast]
  conv_rhs => rw [← hrounds]
  generalize (convert args size es).rounds = rounds at hstep
  induction rounds with
  | nil => rfl
  | cons round rounds ih =>
    obtain ⟨st, st', hround⟩ := hstep round List.mem_cons_self
    rw [List.flatMap_cons, pajes_append, ownLines_append, ownLines_round hround,
      ih fun round' h => hstep round' (List.mem_cons_of_mem _ h), List.map_cons]
    by_cases hid : round.1.id1 = id
    · rw [if_pos hid, ofRank, ofRank, List.filter_cons_of_pos (by simp [hid]), List.flatMap_cons]
    · have hnat : ¬ round.1.id1.toNat = id.toNat := fun h => hid (UInt64.toNat_inj.mp h)
      rw [if_neg hid, ofRank, ofRank, List.filter_cons_of_neg (by simp [hnat]), List.nil_append]

/-! ## Arrows -/

/-- The operations of one triple are those of the rank that makes them. -/
theorem toInt_eq_iff {id : UInt64} (h : id.toNat < 2 ^ 32) (x : Int32) :
    toInt id = x ↔ id.toNat = x.toUInt32.toNat := by
  rw [toInt]
  constructor
  · rintro rfl
    rw [UInt32.toUInt32_toInt32, UInt64.toNat_toUInt32, Nat.mod_eq_of_lt h]
  · intro hid
    have hx : id.toUInt32 = x.toUInt32 := by
      apply UInt32.toNat_inj.mp
      rw [UInt64.toNat_toUInt32, Nat.mod_eq_of_lt h, hid]
    rw [hx, Int32.toInt32_toUInt32]

/-- Each individual operation of an event is filed under the event's rank. -/
theorem src_of_put {e : Event} {k : Triple} {x : Event × Link}
    (h : (x, Req.put k) ∈ asked [e]) : k.2.1 = toInt e.id1 := by
  rw [asked, List.flatMap_singleton] at h
  obtain ⟨req, hreq, heq⟩ := List.mem_map.mp h
  cases req with
  | take l => cases heq
  | put l =>
    cases heq
    unfold individual at hreq
    cases ha : arm e.type <;> simp [ha] at hreq
    case ptpSend | xt1Send =>
      subst hreq
      rfl
    case oneTxSend =>
      obtain ⟨rank, -, rfl⟩ := hreq
      rfl

theorem dst_of_take {e : Event} {k : Triple} {x : Event × Link}
    (h : (x, Req.take k) ∈ asked [e]) : k.2.2 = toInt e.id1 := by
  rw [asked, List.flatMap_singleton] at h
  obtain ⟨req, hreq, heq⟩ := List.mem_map.mp h
  cases req with
  | put l => cases heq
  | take l =>
    cases heq
    unfold individual at hreq
    cases ha : arm e.type <;> simp [ha] at hreq
    case xt1Recv =>
      obtain ⟨rank, -, rfl⟩ := hreq
      rfl
    case ptpRecv | oneTxRecv =>
      subst hreq
      rfl

theorem asked_eq_flatMap (es : List Event) : asked es = es.flatMap fun e => asked [e] := by
  simp [asked]

/-- The events of a rank, by the number its keys are filed under. -/
theorem flatMap_ofRank {α : Type} (f : Event → List α) (x : Int32)
    (hids : ∀ e ∈ es, e.id1.toNat < 2 ^ 32) (hnone : ∀ e ∈ es, x ≠ toInt e.id1 → f e = []) :
    es.flatMap f = (ofRank es x.toUInt32.toNat).flatMap f := by
  induction es with
  | nil => rfl
  | cons e es ih =>
    have ih := ih (fun e' h => hids e' (List.mem_cons_of_mem _ h))
      fun e' h => hnone e' (List.mem_cons_of_mem _ h)
    have hiff := toInt_eq_iff (hids e List.mem_cons_self) x
    rw [List.flatMap_cons, ih, ofRank, ofRank]
    by_cases hx : toInt e.id1 = x
    · rw [List.filter_cons_of_pos (by simpa using hiff.mp hx), List.flatMap_cons]
    · rw [hnone e List.mem_cons_self (Ne.symm hx),
        List.filter_cons_of_neg (by simpa using fun h => hx (hiff.mpr h)), List.nil_append]

/-- **What a queue joins depends on the events of two ranks**, each in its own order. -/
theorem SameOrders.joined (h : SameOrders es es') (hids : ∀ e ∈ es, e.id1.toNat < 2 ^ 32)
    (hids' : ∀ e ∈ es', e.id1.toNat < 2 ^ 32) (k : Triple) :
    joined k (asked es) = joined k (asked es') := by
  have hputs : ∀ {l : List Event}, (∀ e ∈ l, e.id1.toNat < 2 ^ 32) →
      putTags k (asked l) =
        (ofRank l k.2.1.toUInt32.toNat).flatMap fun e => putTags k (asked [e]) := by
    intro l hl
    rw [asked_eq_flatMap, putTags_flatMap]
    refine flatMap_ofRank _ k.2.1 hl fun e _ hne => putTags_eq_nil fun x hx hreq => hne ?_
    exact src_of_put (x := x.1) (by rw [← hreq]; exact hx)
  have htakes : ∀ {l : List Event}, (∀ e ∈ l, e.id1.toNat < 2 ^ 32) →
      takeTags k (asked l) =
        (ofRank l k.2.2.toUInt32.toNat).flatMap fun e => takeTags k (asked [e]) := by
    intro l hl
    rw [asked_eq_flatMap, takeTags_flatMap]
    refine flatMap_ofRank _ k.2.2 hl fun e _ hne => takeTags_eq_nil fun x hx hreq => hne ?_
    exact dst_of_take (x := x.1) (by rw [← hreq]; exact hx)
  rw [Fifo.joined, Fifo.joined, hputs hids, hputs hids', htakes hids, htakes hids', h, h]

/-- A run without links draws no arrow. -/
theorem arrows_noLinks (hl : args.noLinks = true) (size : Option Nat) (es : List Event) :
    arrows (convert args size es).trace = [] := by
  have hrounds := convert_noLinks hl size es
  have hnone : (convert args size es).trace.filterMap Paje.linkEnd = [] := by
    rw [RunOf.trace_eq, RunOf.outs, pajes_append, List.filterMap_append, filterMap_linkEnd]
    have hlinks : (pajes ((convert args size es).rounds.flatMap Prod.snd)).filter Paje.isLink =
        [] := by
      generalize (convert args size es).rounds = rounds at hrounds
      induction rounds with
      | nil => rfl
      | cons round rounds ih =>
        rw [List.flatMap_cons, pajes_append, List.filter_append,
          (hrounds round List.mem_cons_self).1, List.nil_append]
        exact ih fun round' h => hrounds round' (List.mem_cons_of_mem _ h)
    rw [hlinks]
    split <;> rfl
  rw [arrows, hnone]
  rfl

/-- How many keys the events ask for. -/
def sendsOf (es : List Event) : Nat := (putKeys (filing (es.flatMap individual))).length

theorem sendsOf_perm (h : es.Perm es') : sendsOf es = sendsOf es' := by
  have hputs : ∀ rs : List (Req Triple), (putKeys rs).length =
      rs.countP fun
        | .put _ => true
        | .take _ => false := by
    intro rs
    induction rs with
    | nil => rfl
    | cons r rs ih => cases r <;> simp [putKeys, ih]
  rw [sendsOf, sendsOf, hputs, hputs]
  exact ((h.flatMap_right individual).map _).countP_eq _

/-- Two runs that miss nothing, without an end to the counts. -/
theorem convert_agree (args : Arguments) (size size' : Option Nat) (hsame : SameOrders es es')
    (hids : ∀ e ∈ es, e.id1.toNat < 2 ^ 32) (hpass : ∀ e ∈ es, passes args e = true)
    (hsends : sendsOf es ≤ 2 ^ 64) (hquiet : (convert args size es).reports = [])
    (hquiet' : (convert args size' es').reports = []) :
    (∀ id, ownLines (convert args size es).trace id = ownLines (convert args size' es').trace id) ∧
      (arrows (convert args size es).trace).Perm (arrows (convert args size' es').trace) := by
  have hmem : ∀ e ∈ es', e ∈ es := fun e he => hsame.perm.mem_iff.mpr he
  have hrun := undisturbed hpass hquiet
  have hrun' := undisturbed (fun e he => hpass e (hmem e he)) hquiet'
  refine ⟨fun id => ?_, ?_⟩
  · rw [ownLines_trace hrun.rounds, ownLines_trace hrun'.rounds, hsame]
  · cases hl : args.noLinks with
    | true =>
      rw [arrows_noLinks hl, arrows_noLinks hl]
    | false =>
      rw [arrows_trace (convert_linkRound hl size es) hrun.links,
        arrows_trace (convert_linkRound hl size' es') hrun'.links]
      have hsends' : sendsOf es' ≤ 2 ^ 64 := sendsOf_perm hsame.perm ▸ hsends
      refine List.Perm.map _ ((hrun.complete hl hsends).drawn_perm (hrun'.complete hl hsends')
        fun k => ?_)
      rw [hrun.joined_kept hl hsends, hrun'.joined_kept hl hsends']
      exact hsame.joined hids (fun e he => hids e (hmem e he)) k

/-- **The picture does not depend on the merge.** For any stream of events of ranks below 2^32
    that the process survives, fewer than 2^64 sends in it, and any other merge of the same events:
    if neither run misses a receive or has an `int` overflow, every rank's containers and states are
    the same in both traces, and so are the arrows, up to their order. -/
theorem merges_agree (args : Arguments) (size size' : Option Nat) (hsame : SameOrders es es')
    (hids : ∀ e ∈ es, e.id1.toNat < 2 ^ 32) (hpass : ∀ e ∈ es, passes args e = true)
    (hsends : sendsOf es ≤ 2 ^ 64) :
    let r := convertOn IntKeys args size es
    let r' := convertOn IntKeys args size' es'
    r.Defined → r'.Defined → r.reports = [] → r'.reports = [] →
      (∀ id, ownLines r.trace id = ownLines r'.trace id) ∧
        (arrows r.trace).Perm (arrows r'.trace) := by
  intro r r' hdefined hdefined' hquiet hquiet'
  have houts := (convertOn_same ((convertOn_defined args size es).mp hdefined)).2.2
  have houts' := (convertOn_same ((convertOn_defined args size' es').mp hdefined')).2.2
  rw [trace_congr houts, trace_congr houts']
  rw [reports_congr houts] at hquiet
  rw [reports_congr houts'] at hquiet'
  exact convert_agree args size size' hsame hids hpass hsends hquiet hquiet'

/-- Ranks 0 and 2 send to rank 1 at the same time, in either order. -/
theorem merges_agree_sends :
    let before := events [(0, 0, rstEvent mpiInit), (1, 0, rstEvent mpiInit),
      (2, 0, rstEvent mpiInit)]
    let e := Event.ofRecord 0 1 (rstEventIil akyPtpSend 1 8 0)
    let e' := Event.ofRecord 2 1 (rstEventIil akyPtpSend 1 4 0)
    let after := events [(1, 2, rstEventI akyPtpRecv 0), (1, 2, rstEventI akyPtpRecv 2)]
    (∀ id, ownLines (convertOn IntKeys ⟨false, false, false⟩ none (before ++ e :: e' :: after)).trace id =
        ownLines (convertOn IntKeys ⟨false, false, false⟩ (some 2) (before ++ e' :: e :: after)).trace id) ∧
      (arrows (convertOn IntKeys ⟨false, false, false⟩ none (before ++ e :: e' :: after)).trace).Perm
        (arrows (convertOn IntKeys ⟨false, false, false⟩ (some 2) (before ++ e' :: e :: after)).trace) :=
  merges_agree ⟨false, false, false⟩ none (some 2) (SameOrders.swap _ _ (by decide))
    (by decide +kernel) (by decide +kernel) (by decide +kernel)
    ((convertOn_defined _ _ _).mpr (by decide +kernel))
    ((convertOn_defined _ _ _).mpr (by decide +kernel)) (by decide +kernel) (by decide +kernel)

end System
end Akypuera

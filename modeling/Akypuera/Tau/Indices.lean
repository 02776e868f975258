import Akypuera.Tau.Step
import Akypuera.Lib.Firsts

/-!
# Indices of `rank_last_time`

The array grows in `DefThread` alone, to the largest node number so far, and the other callbacks
index it as they come: with their own node, which the reader defined before, and messages also with
the node at the other end, which may be defined later. A receive that finds its key comes after the
send, so its source is defined too, and what is read was written before in any case. **An index is
outside when a message is sent to a node beyond the largest so far**, or when a node's number does
not fit into an `int` (`indexed_iff`).
-/

set_option autoImplicit false

namespace Akypuera
namespace Tau

open CText Search Keys

/-! ## Indices -/

/-- A receive finds its key. -/
def StateOf.hasKey {σ : Type} [LinkKeys σ] (st : StateOf σ) (source destination : UInt32) : Bool :=
  (LinkKeys.call st.keys (.get (messageTriple source destination))).2.nonNull

/-- The nodes that a callback indexes the array with. -/
def Callback.indices (args : Arguments) (st : State) : Callback → List UInt32
  | defThread nodeid _ _ => [nodeid]
  | endTrace nodeid _ => if args.dummy then [] else [nodeid]
  | enterState _ nodeid _ stateid | leaveState _ nodeid _ stateid =>
      if (st.stateNameHash.find (stateKey stateid)).isSome then [nodeid] else []
  | eventTrigger _ nodeToken _ _ _ => [nodeToken]
  | sendMessage _ source _ destination _ _ _ _ =>
      if args.noLinks then [] else [source, destination]
  | recvMessage _ source _ destination _ _ _ _ =>
      if args.noLinks = false ∧ st.hasKey source destination then [source, destination] else []
  | _ => []

/-- `total_number_of_ranks` where it does so: `DefThread` counts its node first. -/
def Callback.total (st : State) : Callback → Int32
  | defThread nodeid _ _ => (st.grown nodeid).1
  | _ => st.totalNumberOfRanks

/-- The nodes whose entries it reads before it writes them. -/
def Callback.reads (args : Arguments) : Callback → List UInt32
  | endTrace nodeid _ => if args.dummy then [] else [nodeid]
  | _ => []

/-- **The accesses of a callback are safe.** -/
structure InRange (args : Arguments) (st : State) (c : Callback) : Prop where
  indices : ∀ n ∈ c.indices args st, (n.toNat : Int) < (c.total st).toInt
  reads : ∀ n ∈ c.reads args, (st.rankLastTime.read n.toNat).isSome = true

/-- Those of all callbacks that are made. -/
def Indexed (args : Arguments) : State → List Callback → Prop
  | _, [] => True
  | st, c :: cs => InRange args st c ∧
      match c.call args st with
      | .ok done => Indexed args done.state cs
      | .error _ => True

/-! ## Sequences -/

/-- The node that is defined. -/
def Callback.defines : Callback → Option UInt32
  | defThread nodeid _ _ => some nodeid
  | _ => none

/-- The reader defines the node of an event before it. -/
def Declared (cs : List Callback) : Prop :=
  ∀ before c after, cs = before ++ c :: after → ∀ t ∈ c.thread,
    c.defines = none → Defined t.1 before

theorem defined_iff {n : UInt32} {cs : List Callback} :
    Defined n cs ↔ ∃ c ∈ cs, c.defines = some n := by
  constructor
  · rintro ⟨tok, name, hmem⟩
    exact ⟨_, hmem, rfl⟩
  · rintro ⟨c, hmem, hc⟩
    cases c with
    | defThread nodeid tok name => cases hc; exact ⟨tok, name, hmem⟩
    | _ => cases hc

instance (n : UInt32) (cs : List Callback) : Decidable (Defined n cs) :=
  @decidable_of_iff _ (∃ c ∈ cs, c.defines = some n) defined_iff.symm
    (List.decidableBEx _ _)

instance (cs : List Callback) : Decidable (Declared cs) :=
  @decidable_of_iff _ _ (Firsts.forall_split_iff cs).symm
    (@Nat.decidableForallFin _ _ fun _ => Option.decidableForallMem _)

/-- A key is there for a receive after the callbacks `before`. -/
def keyed (before : List Callback) (source destination : UInt32) : Bool :=
  (((KeyStore.init (some 1009)).final (messageOps before)).call
    (.get (messageTriple source destination))).2.nonNull

/-- **Which callbacks are fine** after `before`: nodes have small numbers, and a message is not sent
    beyond the largest. -/
def Minds (args : Arguments) (before : List Callback) : Callback → Prop
  | .defThread nodeid _ _ => nodeid.toNat + 1 < 2 ^ 31
  | .sendMessage _ _ _ destination _ _ _ _ =>
      args.noLinks = false → destination.toNat < ranksAfter before
  | _ => True

/-- The process goes on after a callback, unless it is a receive without a key. -/
def Survives (args : Arguments) (before : List Callback) : Callback → Prop
  | .recvMessage _ source _ destination _ _ _ _ =>
      args.noLinks = true ∨ args.ignoreErrors = true ∨ keyed before source destination = true
  | _ => True

/-- All callbacks up to the end of the process are fine. -/
def MindsAll (args : Arguments) (before : List Callback) : List Callback → Prop
  | [] => True
  | c :: cs => Minds args before c ∧ (Survives args before c → MindsAll args (before ++ [c]) cs)

theorem Declared.split {cs cs' : List Callback} (h : Declared (cs ++ cs')) : Declared cs := by
  intro before c after heq
  exact h before c (after ++ cs') (by rw [heq, List.append_assoc, List.cons_append])

/-- **The source of a message that finds its key is defined.** -/
theorem Declared.source {before : List Callback} (h : Declared before) {source destination : UInt32}
    (hkey : keyed before source destination = true) : Defined source before := by
  obtain ⟨time, sourceThread, d, destinationThread, size, tag, comm, hmem⟩ := exists_send hkey
  obtain ⟨pre, post, rfl⟩ := List.append_of_mem hmem
  have hdef := h pre _ post rfl (source, sourceThread) rfl rfl
  exact hdef.append _

instance (args : Arguments) (before : List Callback) (c : Callback) :
    Decidable (Minds args before c) := by
  unfold Minds
  split <;> infer_instance

instance (args : Arguments) (before : List Callback) (c : Callback) :
    Decidable (Survives args before c) := by
  unfold Survives
  split <;> infer_instance

instance MindsAll.decide (args : Arguments) : ∀ before cs, Decidable (MindsAll args before cs)
  | _, [] => .isTrue trivial
  | before, c :: cs =>
      have := MindsAll.decide args (before ++ [c]) cs
      inferInstanceAs
        (Decidable (Minds args before c ∧ (Survives args before c → MindsAll args _ cs)))

/-! ## One callback -/

/-- The array after the callbacks `before`. -/
structure Known (args : Arguments) (before : List Callback) (st : State) : Prop where
  sized : Sized st (ranksAfter before)
  keys : args.noLinks = true ∨ st.keys = (KeyStore.init (some 1009)).final (messageOps before)
  written : ∀ n, Defined n before → (st.rankLastTime.read n.toNat).isSome = true

variable {args : Arguments} {before : List Callback} {st : State} {c : Callback} {done : Done}

theorem Known.init (resolution : ℚ) : Known args [] (State.init resolution) where
  sized := ⟨rfl, rfl⟩
  keys := .inr (by rw [State.init, StateOf.init, hcreateSize_akyKeyTableSize]; rfl)
  written := by
    rintro n ⟨tok, name, hmem⟩
    exact absurd hmem List.not_mem_nil

theorem Known.lt_length (h : Known args before st) {n : UInt32} (hn : n.toNat < ranksAfter before) :
    n.toNat < st.rankLastTime.length := by
  rw [h.sized.cells]
  exact hn

theorem Known.lt_total (h : Known args before st) (n : UInt32) :
    (n.toNat : Int) < st.totalNumberOfRanks.toInt ↔ n.toNat < ranksAfter before := by
  rw [h.sized.total]
  exact Int.ofNat_lt

theorem Known.hasKey (h : Known args before st) (hlinks : args.noLinks = false)
    (source destination : UInt32) : st.hasKey source destination = keyed before source destination := by
  rw [StateOf.hasKey, linkKeys_call, keyed, ← h.keys.resolve_left (by simp [hlinks])]

theorem isSome_set {cells : Cells ℚ} {i j : Nat} {v : ℚ} (h : (cells.read j).isSome = true) :
    (Cells.read (List.set cells i (some v)) j).isSome = true := by
  by_cases heq : j = i
  · subst heq
    obtain ⟨w, hw⟩ := Option.isSome_iff_exists.mp h
    rw [Cells.read_set_self v (Cells.lt_of_read hw)]
    rfl
  · rw [Cells.read_set_ne v heq]
    exact h

theorem ranks_of_defines (h : c.defines = none) (n : Nat) : c.ranks n = n := by
  cases c with
  | defThread => cases h
  | _ => rfl

/-- A callback that defines no node. -/
theorem Known.plain (h : Known args before st) (hdef : c.defines = none) {st' : State}
    (htotal : st'.totalNumberOfRanks = st.totalNumberOfRanks)
    (hlen : st'.rankLastTime.length = st.rankLastTime.length)
    (hwritten : ∀ j, (st.rankLastTime.read j).isSome = true → (st'.rankLastTime.read j).isSome = true)
    (hkeys : args.noLinks = true ∨
      st'.keys = (KeyStore.init (some 1009)).final (messageOps (before ++ [c]))) :
    Known args (before ++ [c]) st' where
  sized := by
    rw [ranksAfter_snoc, ranks_of_defines hdef]
    exact ⟨by rw [htotal]; exact h.sized.total, by rw [hlen]; exact h.sized.cells⟩
  keys := hkeys
  written n hn := by
    obtain ⟨tok, name, hmem⟩ := hn
    rcases List.mem_append.mp hmem with hmem | hmem
    · exact hwritten _ (h.written n ⟨tok, name, hmem⟩)
    · rw [← List.mem_singleton.mp hmem] at hdef
      cases hdef

/-- The key store after a callback. -/
theorem Known.keys_step (h : Known args before st) {st' : State}
    (hkeys : args.noLinks = true ∨ st'.keys = c.op.elim st.keys fun op => (st.keys.call op).1) :
    args.noLinks = true ∨
      st'.keys = (KeyStore.init (some 1009)).final (messageOps (before ++ [c])) := by
  rcases h.keys with hno | hst
  · exact .inl hno
  · apply hkeys.imp_right
    intro hst'
    rw [hst', hst, messageOps_snoc]
    cases c.op with
    | none => rw [Option.toList_none, List.append_nil]; rfl
    | some op => rw [Option.toList_some, KeyStore.final_append]; rfl

/-- **Callbacks keep the array.** -/
theorem Effect.knows (h : Effect args st c done) (hknown : Known args before st) :
    Known args (before ++ [c]) done.state := by
  have hkeep : ∀ {n : UInt32} {v : ℚ} (j : Nat), (st.rankLastTime.read j).isSome = true →
      (Cells.read (List.set st.rankLastTime n.toNat (some v)) j).isSome = true :=
    fun j hj => isSome_set hj
  cases h with
  | clockPeriod | defStateGroup | defUserEvent | defState | endTraceDummy | endTrace =>
    exact hknown.plain rfl rfl rfl (fun _ hj => hj)
      (hknown.keys_step (.inr rfl))
  | unknown hstate =>
    cases c with
    | enterState | leaveState =>
      exact hknown.plain rfl rfl rfl (fun _ hj => hj)
        (hknown.keys_step (.inr rfl))
    | _ => cases hstate
  | noLinks hop hlinks =>
    cases c with
    | sendMessage | recvMessage =>
      exact hknown.plain rfl rfl rfl (fun _ hj => hj) (.inl hlinks)
    | _ => cases hop
  | enterState | leaveState | eventTrigger =>
    exact hknown.plain rfl rfl (List.length_set ..) hkeep
      (hknown.keys_step (.inr rfl))
  | sendMessage | recvMessage =>
    exact hknown.plain rfl rfl
      ((List.length_set ..).trans (List.length_set ..)) (fun j hj => isSome_set (hkeep j hj))
      (hknown.keys_step (.inr rfl))
  | recvMissed =>
    exact hknown.plain rfl rfl rfl (fun _ hj => hj)
      (hknown.keys_step (.inr rfl))
  | @defThread nodeid tok name hlt =>
    have hroom : nodeid.toNat + 1 < 2 ^ 31 := by
      by_contra hlarge
      exact absurd hlt (Nat.not_lt.mpr (hknown.sized.grown_large hlarge).2)
    obtain ⟨htotal, hlen, hread⟩ := hknown.sized.grown hroom
    refine ⟨?_, hknown.keys_step (.inr rfl), ?_⟩
    · rw [ranksAfter_snoc]
      exact ⟨htotal, (List.length_set ..).trans hlen⟩
    · intro n hn
      by_cases heq : n.toNat = nodeid.toNat
      · rw [heq]
        exact Option.isSome_of_mem (Cells.read_set_self 0 hlt)
      · have hold : Defined n before := by
          obtain ⟨tok', name', hmem⟩ := hn
          rcases List.mem_append.mp hmem with hmem | hmem
          · exact ⟨tok', name', hmem⟩
          · cases List.mem_singleton.mp hmem
            exact absurd rfl heq
        refine isSome_set ?_
        rw [hread _ hold.lt_ranksAfter]
        exact hknown.written n hold

/-- **The accesses of a callback are safe exactly when it is fine.** -/
theorem Known.inRange_iff (h : Known args before st) (hbefore : Declared before)
    (hdecl : ∀ t ∈ c.thread, c.defines = none → Defined t.1 before) :
    InRange args st c ↔ Minds args before c := by
  -- the callback's own node
  have hown : ∀ t, c.thread = some t → c.defines = none →
      (t.1.toNat : Int) < st.totalNumberOfRanks.toInt := fun t ht hnew =>
    (h.lt_total t.1).mpr (hdecl t ht hnew).lt_ranksAfter
  cases c with
  | clockPeriod | defStateGroup | defUserEvent | defState =>
    exact ⟨fun _ => trivial, fun _ => ⟨nofun, nofun⟩⟩
  | defThread nodeid tok name =>
    constructor
    · intro hin
      by_contra hlarge
      have hlt := hin.indices nodeid List.mem_cons_self
      exact absurd hlt (Int.not_lt.mpr (h.sized.grown_large hlarge).1)
    · intro hroom
      refine ⟨fun n hn => ?_, nofun⟩
      rw [List.mem_singleton.mp hn, Callback.total, (h.sized.grown hroom).1]
      exact Int.ofNat_lt.mpr (Nat.lt_of_lt_of_le (Nat.lt_succ_self _) (Nat.le_max_right _ _))
  | endTrace nodeid threadid =>
    have hdef := hdecl (nodeid, threadid) rfl rfl
    refine ⟨fun _ => trivial, fun _ => ⟨fun n hn => ?_, fun n hn => ?_⟩⟩
    · rw [Callback.indices] at hn
      split at hn
      · cases hn
      · rw [List.mem_singleton.mp hn]
        exact hown (nodeid, threadid) rfl rfl
    · rw [Callback.reads] at hn
      split at hn
      · cases hn
      · rw [List.mem_singleton.mp hn]
        exact h.written nodeid hdef
  | enterState time nodeid tid stateid | leaveState time nodeid tid stateid =>
    refine ⟨fun _ => trivial, fun _ => ⟨fun n hn => ?_, nofun⟩⟩
    rw [Callback.indices] at hn
    split at hn
    · rw [List.mem_singleton.mp hn]
      exact hown (nodeid, tid) rfl rfl
    · cases hn
  | eventTrigger time nodeToken threadToken userEventToken userEventValue =>
    refine ⟨fun _ => trivial, fun _ => ⟨fun n hn => ?_, nofun⟩⟩
    rw [List.mem_singleton.mp hn]
    exact hown (nodeToken, threadToken) rfl rfl
  | sendMessage time source sourceThread destination destinationThread size tag comm =>
    have hsource := hown (source, sourceThread) rfl rfl
    cases hlinks : args.noLinks with
    | true =>
      refine ⟨fun _ hno => absurd (hlinks.symm.trans hno) nofun, fun _ => ⟨?_, nofun⟩⟩
      rw [Callback.indices, if_pos hlinks]
      exact nofun
    | false =>
      have hboth : Callback.indices args st (.sendMessage time source sourceThread destination
          destinationThread size tag comm) = [source, destination] := if_neg (by simp [hlinks])
      constructor
      · intro hin _
        have hdest := hin.indices destination (by rw [hboth]; simp)
        exact (h.lt_total destination).mp hdest
      · intro hminds
        refine ⟨fun n hn => ?_, nofun⟩
        rw [hboth] at hn
        rcases List.mem_cons.mp hn with rfl | hn
        · exact hsource
        · rw [List.mem_singleton.mp hn]
          exact (h.lt_total destination).mpr (hminds hlinks)
  | recvMessage time source sourceThread destination destinationThread size tag comm =>
    have hdest := hown (destination, destinationThread) rfl rfl
    have hindices : Callback.indices args st (.recvMessage time source sourceThread destination
        destinationThread size tag comm) =
        if args.noLinks = false ∧ keyed before source destination then [source, destination]
        else [] := by
      cases hlinks : args.noLinks with
      | true => simp [Callback.indices, hlinks]
      | false => simp [Callback.indices, hlinks, h.hasKey hlinks]
    refine ⟨fun _ => trivial, fun _ => ⟨fun n hn => ?_, nofun⟩⟩
    rw [hindices] at hn
    split at hn
    · next hboth =>
      rcases List.mem_cons.mp hn with rfl | hn
      · exact (h.lt_total n).mpr (hbefore.source hboth.2).lt_ranksAfter
      · rw [List.mem_singleton.mp hn]
        exact hdest
    · cases hn

/-- A callback that returns is survived. -/
theorem Effect.survives (h : Effect args st c done) (hknown : Known args before st) :
    Survives args before c := by
  cases h with
  | unknown hstate =>
    cases c with
    | enterState | leaveState => trivial
    | _ => cases hstate
  | noLinks hop hlinks =>
    cases c with
    | sendMessage => trivial
    | recvMessage => exact .inl hlinks
    | _ => cases hop
  | recvMessage hlinks hkey =>
    rw [Survives, ← hknown.hasKey hlinks]
    exact .inr (.inr hkey)
  | recvMissed hlinks hkey hignore => exact .inr (.inl hignore)
  | _ => trivial

/-- **A callback that is fine and survived returns.** -/
theorem Known.returns (h : Known args before st) (hbefore : Declared before)
    (hdecl : ∀ t ∈ c.thread, c.defines = none → Defined t.1 before)
    (hminds : Minds args before c) (hsurvives : Survives args before c) :
    ∃ done, Effect args st c done := by
  have hown : ∀ t, c.thread = some t → c.defines = none →
      t.1.toNat < st.rankLastTime.length := fun t ht hnew =>
    h.lt_length (hdecl t ht hnew).lt_ranksAfter
  cases c with
  | clockPeriod clkPeriod => exact ⟨_, .clockPeriod clkPeriod⟩
  | defStateGroup token name => exact ⟨_, .defStateGroup token name⟩
  | defUserEvent token name increasing => exact ⟨_, .defUserEvent token name increasing⟩
  | defState stateid statename group => exact ⟨_, .defState stateid statename group⟩
  | defThread nodeid tok name =>
    have hlen := (h.sized.grown hminds).2.1
    refine ⟨_, .defThread ?_⟩
    rw [hlen]
    exact Nat.lt_of_lt_of_le (Nat.lt_succ_self _) (Nat.le_max_right _ _)
  | endTrace nodeid threadid =>
    cases hdummy : args.dummy with
    | true => exact ⟨_, .endTraceDummy hdummy⟩
    | false =>
      have hdef := hdecl (nodeid, threadid) rfl rfl
      obtain ⟨time, htime⟩ := Option.isSome_iff_exists.mp (h.written nodeid hdef)
      exact ⟨_, .endTrace hdummy htime⟩
  | enterState time nodeid tid stateid =>
    have hlt := hown (nodeid, tid) rfl rfl
    cases hfind : st.stateNameHash.find (stateKey stateid) with
    | none => exact ⟨_, .unknown rfl hfind⟩
    | some text => exact ⟨_, .enterState hfind hlt⟩
  | leaveState time nodeid tid stateid =>
    have hlt := hown (nodeid, tid) rfl rfl
    cases hfind : st.stateNameHash.find (stateKey stateid) with
    | none => exact ⟨_, .unknown rfl hfind⟩
    | some text => exact ⟨_, .leaveState hfind hlt⟩
  | eventTrigger time nodeToken threadToken userEventToken userEventValue =>
    exact ⟨_, .eventTrigger (hown (nodeToken, threadToken) rfl rfl)⟩
  | sendMessage time source sourceThread destination destinationThread size tag comm =>
    have hs := hown (source, sourceThread) rfl rfl
    cases hlinks : args.noLinks with
    | true => exact ⟨_, .noLinks rfl hlinks⟩
    | false => exact ⟨_, .sendMessage hlinks hs (h.lt_length (hminds hlinks))⟩
  | recvMessage time source sourceThread destination destinationThread size tag comm =>
    have hd := hown (destination, destinationThread) rfl rfl
    cases hlinks : args.noLinks with
    | true => exact ⟨_, .noLinks rfl hlinks⟩
    | false =>
      have hkey := h.hasKey hlinks source destination
      cases hkeyed : keyed before source destination with
      | true =>
        have hs := h.lt_length (hbefore.source hkeyed).lt_ranksAfter
        exact ⟨_, .recvMessage hlinks (hkey.trans hkeyed) hs hd⟩
      | false =>
        have hignore : args.ignoreErrors = true := by
          rcases hsurvives with hno | hignore | hans
          · exact absurd (hlinks.symm.trans hno) nofun
          · exact hignore
          · exact absurd (hkeyed.symm.trans hans) nofun
        exact ⟨_, .recvMissed hlinks (hkey.trans hkeyed) hignore⟩

/-! ## Runs -/

theorem Declared.head {cs : List Callback} (h : Declared (before ++ c :: cs)) :
    ∀ t ∈ c.thread, c.defines = none → Defined t.1 before :=
  h before c cs rfl

theorem Known.indexed_from (h : Known args before st) {cs : List Callback}
    (hdecl : Declared (before ++ cs)) : Indexed args st cs ↔ MindsAll args before cs := by
  induction cs generalizing before st with
  | nil => exact Iff.rfl
  | cons c cs ih =>
    have hbefore := hdecl.split
    rw [Indexed, MindsAll, h.inRange_iff hbefore hdecl.head]
    apply and_congr_right
    intro hminds
    rw [← List.singleton_append, ← List.append_assoc] at hdecl
    cases hcall : c.call args st with
    | ok done =>
      have heff := call_iff_effect.mp hcall
      have hsurvives := heff.survives h
      show Indexed args done.state cs ↔ _
      rw [ih (heff.knows h) hdecl]
      exact ⟨fun hall _ => hall, fun hall => hall hsurvives⟩
    | error stop =>
      refine ⟨fun _ hsurvives => ?_, fun _ => trivial⟩
      rw [List.append_assoc] at hdecl
      obtain ⟨done, heff⟩ := h.returns hbefore hdecl.head hminds hsurvives
      rw [call_iff_effect.mpr heff] at hcall
      cases hcall

/-- **When the array is indexed in range.** Where the nodes of events are defined before, the
    accesses of all callbacks that are made are safe exactly when all of these are fine. -/
theorem indexed_iff (args : Arguments) (resolution : ℚ) (cs : List Callback)
    (hdeclared : Declared cs) :
    Indexed args (State.init resolution) cs ↔ MindsAll args [] cs :=
  (Known.init resolution).indexed_from hdeclared

/-- A message between two nodes, to one that is defined after the sender. -/
def lateReceiver : List Callback :=
  [.defThread 1 0 "b".toList, .sendMessage 1 1 0 0 0 8 42 0, .defThread 0 0 "a".toList,
    .recvMessage 2 1 0 0 0 8 42 0, .endTrace 1 0, .endTrace 0 0]

theorem indexed_iff_lateReceiver : Indexed plainly (State.init 0) lateReceiver :=
  (indexed_iff plainly 0 lateReceiver (by decide +kernel)).mpr (by decide +kernel)

/-- A message to a node beyond the largest so far. -/
def farReceiver : List Callback :=
  [.defThread 0 0 "a".toList, .sendMessage 1 0 0 5 0 8 42 0, .defThread 5 0 "b".toList]

/-- **`rank_last_time[5]` is written when there is one rank.** -/
theorem farReceiver_not_indexed :
    Declared farReceiver ∧ ¬ Indexed plainly (State.init 0) farReceiver := by
  have hdeclared : Declared farReceiver := by decide +kernel
  refine ⟨hdeclared, ?_⟩
  intro h
  have hminds := ((Known.init 0).indexed_from hdeclared).mp h
  exact absurd hminds (by decide +kernel)

end Tau
end Akypuera

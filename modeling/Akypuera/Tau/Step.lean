import Akypuera.Tau.Times
import Akypuera.Tau.Effects

/-!
# One callback

`Inv` says what the static data are after some callbacks, and `Ready` what a callback needs: a node
that is new or defined, entries inside `rank_last_time`, a key for a message that is received. From
there **the callback returns, writes about its own node only, and keeps the invariant**
(`Inv.step`).
-/

set_option autoImplicit false

namespace Akypuera
namespace Tau

open CText Search Keys Nesting

/-- The resolution after some callbacks. -/
def resolutionAfter (r : Resolution) (cs : List Callback) : Resolution :=
  cs.foldl Callback.resolution r

theorem resolutionAfter_snoc (r : Resolution) (cs : List Callback) (c : Callback) :
    resolutionAfter r (cs ++ [c]) = c.resolution (resolutionAfter r cs) := by
  simp [resolutionAfter]

theorem namesAfter_snoc (args : Arguments) (cs : List Callback) (c : Callback) :
    namesAfter args (cs ++ [c]) = c.names args (namesAfter args cs) := by
  simp [namesAfter]

theorem ranksAfter_snoc (cs : List Callback) (c : Callback) :
    ranksAfter (cs ++ [c]) = c.ranks (ranksAfter cs) := by
  simp [ranksAfter]

theorem messageOps_snoc (cs : List Callback) (c : Callback) :
    messageOps (cs ++ [c]) = messageOps cs ++ c.op.toList := by
  cases h : c.op <;> simp [messageOps, h]

theorem fits_messageTriple (source destination : UInt32) :
    (messageTriple source destination).Fits :=
  fits_of_length_le (show "n".toList.length ≤ 175 by decide) _ _

theorem fits_messageOps {cs : List Callback} {op : Op} (h : op ∈ messageOps cs) :
    op.triple.Fits := by
  obtain ⟨c, -, hc⟩ := List.mem_filterMap.mp h
  cases c with
  | sendMessage _ _ _ _ _ _ _ _ | recvMessage _ _ _ _ _ _ _ _ =>
    cases hc
    exact fits_messageTriple _ _
  | _ => cases hc

theorem messageTriple_inj {s d s' d' : UInt32} (h : messageTriple s d = messageTriple s' d') :
    s = s' ∧ d = d' := by
  obtain ⟨-, hends⟩ := Prod.ext_iff.mp h
  obtain ⟨hs, hd⟩ := Prod.ext_iff.mp hends
  exact ⟨toInt32_inj hs, toInt32_inj hd⟩

theorem le_ranksAfter_append (cs cs' : List Callback) :
    ranksAfter cs ≤ ranksAfter (cs ++ cs') := by
  induction cs' using List.reverseRecOn with
  | nil => rw [List.append_nil]
  | append_singleton cs' c ih =>
    rw [← List.append_assoc, ranksAfter_snoc]
    refine ih.trans ?_
    cases c with
    | defThread nodeid _ _ => exact Nat.le_max_left _ _
    | _ => exact Nat.le_refl _

theorem Defined.lt_ranksAfter {n : UInt32} {cs : List Callback} (h : Defined n cs) :
    n.toNat < ranksAfter cs := by
  obtain ⟨tok, name, hmem⟩ := h
  obtain ⟨pre, post, rfl⟩ := List.append_of_mem hmem
  rw [show pre ++ .defThread n tok name :: post = (pre ++ [.defThread n tok name]) ++ post by simp]
  refine Nat.lt_of_lt_of_le ?_ (le_ranksAfter_append _ post)
  rw [ranksAfter_snoc]
  exact Nat.lt_of_lt_of_le (Nat.lt_succ_self _) (Nat.le_max_right _ _)

/-! ## What a callback writes -/

def Paje.creates : Paje → Bool
  | createContainer .. => true
  | _ => false

def Paje.destroys : Paje → Bool
  | destroyContainer .. => true
  | _ => false

/-- The states of a container as openings and closings. -/
def Paje.mark : Paje → Option Mark
  | pushState .. => some .opens
  | popState .. => some .closes
  | _ => none

/-- A `DefThread` creates, an `EndTrace` destroys, and nothing else does. -/
def Life (outs : List Paje) : Callback → Prop
  | .defThread _ _ _ => ∃ p, outs = [p] ∧ p.creates = true
  | .endTrace _ _ => ∃ p, outs = [p] ∧ p.destroys = true
  | _ => ∀ p ∈ outs, p.creates = false ∧ p.destroys = false

/-- What a callback that comes after `before` writes. -/
structure Wrote (args : Arguments) (before : List Callback) (c : Callback) (outs : List Paje) :
    Prop where
  container : ∀ p ∈ outs, ∃ t ∈ c.thread, p.container = mpiProcess t.1
  life : Life outs c
  marks : outs.filterMap Paje.mark = if shows args before c then c.mark.toList else []

/-- **A key is there only for a message that was sent.** -/
theorem exists_send {before : List Callback} {source destination : UInt32}
    (hkey : (((KeyStore.init (some 1009)).final (messageOps before)).call
      (.get (messageTriple source destination))).2.nonNull = true) :
    ∃ time sourceThread d destinationThread size tag comm,
      .sendMessage time source sourceThread d destinationThread size tag comm ∈ before := by
  have hput := put_of_answered (fun op hop => ?_) hkey
  · obtain ⟨c, hmem, hop⟩ := List.mem_filterMap.mp hput
    cases c with
    | sendMessage time s sourceThread d destinationThread size tag comm =>
      obtain ⟨rfl, -⟩ := messageTriple_inj (Op.put.inj (Option.some.inj hop))
      exact ⟨time, sourceThread, d, destinationThread, size, tag, comm, hmem⟩
    | _ => cases hop
  · rcases List.mem_append.mp hop with hop | hop
    · exact fits_messageOps hop
    · rw [List.mem_singleton.mp hop]
      exact fits_messageTriple source destination

/-- What a callback needs after the callbacks `before`. -/
structure Ready (args : Arguments) (before : List Callback) (c : Callback) : Prop where
  new : ∀ n tok name, c = .defThread n tok name → ¬ Defined n before
  defined : ∀ t ∈ c.thread, (∀ n tok name, c ≠ .defThread n tok name) → Defined t.1 before
  nodes : ranksAfter (before ++ [c]) < 2 ^ 31
  peers : args.noLinks = true ∨ ∀ n ∈ c.peer, n.toNat < ranksAfter before
  sources : ∀ source destination, (((KeyStore.init (some 1009)).final (messageOps before)).call
    (.get (messageTriple source destination))).2.nonNull = true → Defined source before
  answered : args.noLinks = true ∨ args.ignoreErrors = true ∨ ∀ t, c.op = some (.get t) →
    (((KeyStore.init (some 1009)).final (messageOps before)).call (.get t)).2.nonNull = true

/-- The static data after the callbacks `before`, which wrote `outs`, at the time `now`. -/
structure Inv (args : Arguments) (r : Resolution) (before : List Callback) (outs : List Paje)
    (now : ℚ) (st : State) : Prop where
  resolution : st.resolution = resolutionAfter r before
  names : HTab.SameKeys st.stateNameHash (namesAfter args before)
  keys : args.noLinks = true ∨ st.keys = (KeyStore.init (some 1009)).final (messageOps before)
  total : st.totalNumberOfRanks.toInt = ranksAfter before
  cells : st.rankLastTime.length = ranksAfter before
  times : Times before outs now st.rankLastTime
  nonneg : 0 ≤ now

theorem Inv.init (args : Arguments) (resolution : ℚ) :
    Inv args (.finite resolution) [] [] 0 (State.init resolution) where
  resolution := rfl
  names := by
    rw [State.init, StateOf.init, hcreateSize_1000]
    exact HTab.SameKeys.refl _
  keys := .inr (by rw [State.init, StateOf.init, hcreateSize_akyKeyTableSize]; rfl)
  total := rfl
  cells := rfl
  times := Times.init
  nonneg := le_refl 0

/-- What a callback of a thread does not touch. -/
structure Plain (args : Arguments) (c : Callback) : Prop where
  resolution : ∀ r, c.resolution r = r
  names : ∀ hash, c.names args hash = hash
  ranks : ∀ n, c.ranks n = n
  new : ∀ n tok name, c ≠ .defThread n tok name

variable {args : Arguments} {r : Resolution} {before : List Callback} {outs : List Paje}
  {now : ℚ} {st : State} {c : Callback}

/-- The parts of the invariant that a callback of a thread may change. -/
theorem Inv.plain (h : Inv args r before outs now st) (hc : Plain args c) {st' : State}
    {outs' : List Paje} {now' : ℚ} (hres : st'.resolution = st.resolution)
    (hnames : HTab.SameKeys st'.stateNameHash (namesAfter args before))
    (hkeys : args.noLinks = true ∨
      st'.keys = (KeyStore.init (some 1009)).final (messageOps (before ++ [c])))
    (htotal : st'.totalNumberOfRanks = st.totalNumberOfRanks)
    (hcells : st'.rankLastTime.length = st.rankLastTime.length)
    (htimes : Times before outs' now' st'.rankLastTime) (hnow : 0 ≤ now') :
    Inv args r (before ++ [c]) outs' now' st' where
  resolution := by rw [hres, h.resolution, resolutionAfter_snoc, hc.resolution]
  names := by rw [namesAfter_snoc, hc.names]; exact hnames
  keys := hkeys
  total := by rw [htotal, h.total, ranksAfter_snoc, hc.ranks]
  cells := by rw [hcells, h.cells, ranksAfter_snoc, hc.ranks]
  times := htimes.skip hc.new
  nonneg := hnow

/-- Without a message, the keys are as they were. -/
theorem Inv.keys_of_op_none (h : Inv args r before outs now st) (hop : c.op = none) :
    args.noLinks = true ∨
      st.keys = (KeyStore.init (some 1009)).final (messageOps (before ++ [c])) := by
  rw [messageOps_snoc, hop, Option.toList_none, List.append_nil]
  exact h.keys

theorem Inv.lt_length (h : Inv args r before outs now st) {n : UInt32} (hn : Defined n before) :
    n.toNat < st.rankLastTime.length := by
  rw [h.cells]
  exact hn.lt_ranksAfter

/-- A name is known to the callback when it was defined. -/
theorem Inv.find_isSome (h : Inv args r before outs now st) (stateid : UInt32) :
    (st.stateNameHash.find (stateKey stateid)).isSome =
      ((namesAfter args before).find (stateKey stateid)).isSome := h.names.entry _

/-- What one callback does to the invariant. -/
def Steps (args : Arguments) (r : Resolution) (before : List Callback) (outs : List Paje)
    (now : ℚ) (st : State) (c : Callback) : Prop :=
  ∃ done, c.call args st = .ok done ∧ Wrote args before c done.outs ∧
    Inv args r (before ++ [c]) (outs ++ done.outs) (nowAfter st.resolution now c) done.state

/-- An event that is written for node `n`, whose entry is its time. -/
structure Written (n : UInt32) (cells : Cells ℚ) (p : Paje) : Prop where
  container : p.container = mpiProcess n
  time : cells.read n.toNat = some p.time
  plain : p.creates = false ∧ p.destroys = false

/-- **Events of a thread**: the entries of nodes it is about are set to its time, and at most one
    event is written. -/
theorem Inv.event (h : Inv args r before outs now st) (hc : Plain args c) {time : ℚ}
    (ht : c.time = some time) (hnow : now ≤ timeToSeconds st.resolution time) {t : Thread}
    (hthread : c.thread = some t) (hdef : Defined t.1 before) {done : Done}
    (hcall : c.call args st = .ok done) (hres : done.state.resolution = st.resolution)
    (hnames : HTab.SameKeys done.state.stateNameHash (namesAfter args before))
    (hkeys : args.noLinks = true ∨
      done.state.keys = (KeyStore.init (some 1009)).final (messageOps (before ++ [c])))
    (htotal : done.state.totalNumberOfRanks = st.totalNumberOfRanks)
    (hcells : done.state.rankLastTime.length = st.rankLastTime.length)
    (htimes : Times before outs (timeToSeconds st.resolution time) done.state.rankLastTime)
    (houts : done.outs = [] ∨ ∃ p, done.outs = [p] ∧ Written t.1 done.state.rankLastTime p)
    (hmarks : done.outs.filterMap Paje.mark = if shows args before c then c.mark.toList else []) :
    Steps args r before outs now st c := by
  have hlife : (∀ p ∈ done.outs, p.creates = false ∧ p.destroys = false) → Life done.outs c := by
    intro hp
    cases c with
    | defThread _ _ _ | endTrace _ _ => cases ht
    | _ => exact hp
  have hat : nowAfter st.resolution now c = timeToSeconds st.resolution time := by
    rw [nowAfter, ht]; rfl
  refine ⟨done, hcall, ?_⟩
  rw [hat]
  rcases houts with houts | ⟨p, houts, hp⟩
  · rw [houts] at hmarks hlife ⊢
    refine ⟨⟨List.forall_mem_nil _, hlife (List.forall_mem_nil _), hmarks⟩, ?_⟩
    rw [List.append_nil]
    exact h.plain hc hres hnames hkeys htotal hcells htimes (h.nonneg.trans hnow)
  · rw [houts] at hmarks hlife ⊢
    refine ⟨⟨?_, hlife ?_, hmarks⟩, ?_⟩
    · intro p' hp'
      rw [List.mem_singleton.mp hp']
      exact ⟨t, hthread, hp.container⟩
    · intro p' hp'
      rw [List.mem_singleton.mp hp']
      exact hp.plain
    · exact h.plain hc hres hnames hkeys htotal hcells (htimes.emit hdef hp.container hp.time)
        (h.nonneg.trans hnow)

/-! ## The handlers, one by one -/

/-- With output, a state that is known writes its event unless states are off. -/
theorem outs_of_output (hdummy : args.dummy = false) (p : Paje) :
    (if ¬ args.dummy ∧ ¬ args.noStates then [p] else []) =
      if args.noStates = true then [] else [p] := by
  cases args.noStates <;> simp [hdummy]

/-- A state that is not known changes nothing. -/
theorem Inv.unknown (h : Inv args r before outs now st) (hc : Plain args c) {time : ℚ}
    (ht : c.time = some time) (hnow : now ≤ timeToSeconds st.resolution time) {t : Thread}
    (hthread : c.thread = some t) (hdef : Defined t.1 before) (hop : c.op = none)
    (hshows : shows args before c = false)
    (hcall : c.call args st = .ok { state := st, outs := [], result := 1 }) :
    Steps args r before outs now st c :=
  h.event hc ht hnow hthread hdef hcall rfl h.names (h.keys_of_op_none hop) rfl rfl
    (h.times.later hnow) (.inl rfl) (by rw [hshows]; rfl)

/-- **A state is entered or left**: the entry of the node is set when the state is known. -/
theorem Inv.ofState (h : Inv args r before outs now st) {time : ℚ} {nodeid tid stateid : UInt32}
    (hplain : Plain args c) (hready : Ready args before c) (ht : c.time = some time)
    (hnow : now ≤ timeToSeconds st.resolution time) (hthread : c.thread = some (nodeid, tid))
    (hstate : c.stateid = some stateid) (hop : c.op = none)
    (hunknown : st.stateNameHash.find (stateKey stateid) = none →
      c.call args st = .ok { state := st, outs := [], result := 1 })
    (hknown : ∀ text, st.stateNameHash.find (stateKey stateid) = some text →
      nodeid.toNat < st.rankLastTime.length → ∃ names p,
        HTab.SameKeys names (namesAfter args before) ∧
        c.call args st = .ok
          { state := { st.touched nodeid time with
              stateNameHash := names
              lastTime := timeToSeconds st.resolution time }
            outs := if args.noStates = true then [] else [p]
            result := 0 } ∧
        p.container = mpiProcess nodeid ∧ p.time = timeToSeconds st.resolution time ∧
        (p.creates = false ∧ p.destroys = false) ∧ p.mark.toList = c.mark.toList) :
    Steps args r before outs now st c := by
  have hdef : Defined nodeid before := hready.defined (nodeid, tid) hthread hplain.new
  have hsome := h.find_isSome stateid
  cases hfind : st.stateNameHash.find (stateKey stateid) with
  | none =>
    rw [hfind] at hsome
    refine h.unknown hplain ht hnow hthread hdef hop ?_ (hunknown hfind)
    simp [shows, hstate, ← hsome]
  | some text =>
    rw [hfind] at hsome
    have hlt := h.lt_length hdef
    obtain ⟨names, p, hnames, hcall, hcontainer, htime, hquiet, hmark⟩ := hknown text hfind hlt
    refine h.event hplain ht hnow hthread hdef hcall rfl hnames (h.keys_of_op_none hop) rfl
      (List.length_set ..) (h.times.set hlt hnow h.nonneg) ?_ ?_
    · cases args.noStates with
      | true => exact .inl rfl
      | false => exact .inr ⟨p, rfl, hcontainer, by rw [htime]; exact Cells.read_set_self _ hlt, hquiet⟩
    · cases hs : args.noStates with
      | true => simp [shows, hstate, hs]
      | false =>
        rw [shows, hstate, ← hmark]
        cases hp : p.mark <;> simp [hs, ← hsome, hp]

theorem Inv.enterState (h : Inv args r before outs now st) (hdummy : args.dummy = false)
    {time : ℚ} {nodeid tid stateid : UInt32}
    (hready : Ready args before (.enterState time nodeid tid stateid))
    (hnow : now ≤ timeToSeconds st.resolution time) :
    Steps args r before outs now st (.enterState time nodeid tid stateid) := by
  have hplain : Plain args (.enterState time nodeid tid stateid) :=
    ⟨fun _ => rfl, fun _ => rfl, fun _ => rfl, fun _ _ _ => nofun⟩
  refine h.ofState hplain hready rfl hnow rfl rfl rfl (fun hfind => ?_) fun text hfind hlt => ?_
  · simp [Callback.call, Tau.enterState, hfind]
  · have hcall := (@enterState_eq args _ _ _ hfind time nodeid).trans (if_pos hlt)
    rw [outs_of_output hdummy] at hcall
    exact ⟨_, _, h.names.set _ (by rw [hfind]; rfl), hcall, rfl, rfl, ⟨rfl, rfl⟩, rfl⟩

theorem Inv.leaveState (h : Inv args r before outs now st) (hdummy : args.dummy = false)
    {time : ℚ} {nodeid tid stateid : UInt32}
    (hready : Ready args before (.leaveState time nodeid tid stateid))
    (hnow : now ≤ timeToSeconds st.resolution time) :
    Steps args r before outs now st (.leaveState time nodeid tid stateid) := by
  have hplain : Plain args (.leaveState time nodeid tid stateid) :=
    ⟨fun _ => rfl, fun _ => rfl, fun _ => rfl, fun _ _ _ => nofun⟩
  refine h.ofState hplain hready rfl hnow rfl rfl rfl (fun hfind => ?_) fun text hfind hlt => ?_
  · simp [Callback.call, Tau.leaveState, hfind]
  · have hcall := (@leaveState_eq args _ _ _ hfind time nodeid).trans (if_pos hlt)
    rw [outs_of_output hdummy] at hcall
    exact ⟨_, _, h.names, hcall, rfl, rfl, ⟨rfl, rfl⟩, rfl⟩

theorem Inv.eventTrigger (h : Inv args r before outs now st) {time : ℚ}
    {nodeToken threadToken userEventToken : UInt32} {userEventValue : Int64}
    (hready : Ready args before
      (.eventTrigger time nodeToken threadToken userEventToken userEventValue))
    (hnow : now ≤ timeToSeconds st.resolution time) :
    Steps args r before outs now st
      (.eventTrigger time nodeToken threadToken userEventToken userEventValue) := by
  have hplain : Plain args
      (.eventTrigger time nodeToken threadToken userEventToken userEventValue) :=
    ⟨fun _ => rfl, fun _ => rfl, fun _ => rfl, fun _ _ _ => nofun⟩
  have hdef : Defined nodeToken before := hready.defined (nodeToken, threadToken) rfl hplain.new
  have hlt := h.lt_length hdef
  refine @Inv.event _ _ _ _ _ _ _ h hplain time rfl hnow (nodeToken, threadToken) rfl hdef
    { state := (st.touched nodeToken time).at time, outs := [], result := 0 } ?_ rfl h.names
    (h.keys_of_op_none rfl) rfl (List.length_set ..) (h.times.set hlt hnow h.nonneg) (.inl rfl) rfl
  exact (eventTrigger_eq st time nodeToken).trans (if_pos hlt)

/-- With `--no-links` messages change nothing. -/
theorem Inv.noLinks (h : Inv args r before outs now st) (hc : Plain args c) {time : ℚ}
    (ht : c.time = some time) (hnow : now ≤ timeToSeconds st.resolution time) {t : Thread}
    (hthread : c.thread = some t) (hdef : Defined t.1 before) (hno : args.noLinks = true)
    (hmark : c.mark = none) (hcall : c.call args st = .ok { state := st, outs := [], result := 0 }) :
    Steps args r before outs now st c :=
  h.event hc ht hnow hthread hdef hcall rfl h.names (.inl hno) rfl rfl
    (h.times.later hnow) (.inl rfl) (by rw [hmark]; cases shows args before c <;> rfl)

/-- The entries of both ends of a message. -/
theorem Inv.touches (h : Inv args r before outs now st) {time : ℚ} {n n' : UInt32}
    (hnow : now ≤ timeToSeconds st.resolution time) (hn : n.toNat < st.rankLastTime.length)
    (hn' : n'.toNat < st.rankLastTime.length) :
    Times before outs (timeToSeconds st.resolution time)
      (List.set (List.set st.rankLastTime n.toNat (some (timeToSeconds st.resolution time)))
        n'.toNat (some (timeToSeconds st.resolution time))) :=
  (h.times.set hn hnow h.nonneg).set ((List.length_set ..).symm ▸ hn') (le_refl _)
    (h.nonneg.trans hnow)

/-- Both entries hold the time. -/
theorem read_touches {cells : Cells ℚ} {s : ℚ} {n n' m : UInt32} (hm : m = n ∨ m = n')
    (hlt : m.toNat < cells.length) :
    Cells.read (List.set (List.set cells n.toNat (some s)) n'.toNat (some s)) m.toNat = some s := by
  by_cases heq : m.toNat = n'.toNat
  · rw [heq]
    exact Cells.read_set_self s (by rw [List.length_set, ← heq]; exact hlt)
  · have hn : m = n := hm.resolve_right fun h => heq (h ▸ rfl)
    rw [Cells.read_set_ne s heq, hn]
    exact Cells.read_set_self s (hn ▸ hlt)

/-- The key store after a message. -/
theorem Inv.keys_of_op (h : Inv args r before outs now st) {op : Op} (hop : c.op = some op)
    (hlinks : args.noLinks = false) :
    (st.keys.call op).1 = (KeyStore.init (some 1009)).final (messageOps (before ++ [c])) := by
  have hkeys := h.keys.resolve_left (by simp [hlinks])
  rw [messageOps_snoc, hop, Option.toList_some, KeyStore.final_append, ← hkeys]
  rfl

theorem Inv.sendMessage (h : Inv args r before outs now st) (hdummy : args.dummy = false)
    {time : ℚ} {source sourceThread destination destinationThread size tag comm : UInt32}
    (hready : Ready args before
      (.sendMessage time source sourceThread destination destinationThread size tag comm))
    (hnow : now ≤ timeToSeconds st.resolution time) :
    Steps args r before outs now st
      (.sendMessage time source sourceThread destination destinationThread size tag comm) := by
  have hplain : Plain args
      (.sendMessage time source sourceThread destination destinationThread size tag comm) :=
    ⟨fun _ => rfl, fun _ => rfl, fun _ => rfl, fun _ _ _ => nofun⟩
  have hdef : Defined source before := hready.defined (source, sourceThread) rfl hplain.new
  have hs := h.lt_length hdef
  cases hlinks : args.noLinks with
  | true =>
    refine @Inv.noLinks _ _ _ _ _ _ _ h hplain time rfl hnow _ rfl hdef hlinks rfl ?_
    simp [Callback.call, Tau.sendMessage, hlinks]
  | false =>
    have hd : destination.toNat < st.rankLastTime.length := by
      rw [h.cells]
      exact hready.peers.resolve_left (by simp [hlinks]) destination rfl
    exact @Inv.event _ _ _ _ _ _ _ h hplain time rfl hnow (source, sourceThread) rfl hdef _
      ((sendMessage_eq hlinks st time source destination size tag).trans (if_pos ⟨hs, hd⟩)) rfl h.names
      (.inr (h.keys_of_op rfl hlinks)) rfl
      ((List.length_set ..).trans (List.length_set ..)) (h.touches hnow hs hd)
      (.inr ⟨_, if_neg (by simp [hdummy]), rfl, read_touches (.inl rfl) hs, rfl, rfl⟩)
      (by simp [hdummy, Paje.mark, shows, Callback.stateid])

theorem Inv.recvMessage (h : Inv args r before outs now st) (hdummy : args.dummy = false)
    {time : ℚ} {source sourceThread destination destinationThread size tag comm : UInt32}
    (hready : Ready args before
      (.recvMessage time source sourceThread destination destinationThread size tag comm))
    (hnow : now ≤ timeToSeconds st.resolution time) :
    Steps args r before outs now st
      (.recvMessage time source sourceThread destination destinationThread size tag comm) := by
  have hplain : Plain args
      (.recvMessage time source sourceThread destination destinationThread size tag comm) :=
    ⟨fun _ => rfl, fun _ => rfl, fun _ => rfl, fun _ _ _ => nofun⟩
  have hdef : Defined destination before :=
    hready.defined (destination, destinationThread) rfl hplain.new
  have hd := h.lt_length hdef
  cases hlinks : args.noLinks with
  | true =>
    refine @Inv.noLinks _ _ _ _ _ _ _ h hplain time rfl hnow _ rfl hdef hlinks rfl ?_
    simp [Callback.call, Tau.recvMessage, hlinks]
  | false =>
    cases hkey : (st.keys.call (.get (messageTriple source destination))).2.nonNull with
    | true =>
      have hs : source.toNat < st.rankLastTime.length := by
        rw [h.keys.resolve_left (by simp [hlinks])] at hkey
        exact h.lt_length (hready.sources source destination hkey)
      exact @Inv.event _ _ _ _ _ _ _ h hplain time rfl hnow (destination, destinationThread) rfl
        hdef _ ((recvMessage_eq hlinks time hkey).trans (if_pos ⟨hs, hd⟩)) rfl h.names
        (.inr (h.keys_of_op rfl hlinks)) rfl
        ((List.length_set ..).trans (List.length_set ..)) (h.touches hnow hs hd)
        (.inr ⟨_, if_neg (by simp [hdummy]), rfl, read_touches (.inr rfl) hd, rfl, rfl⟩)
        (by simp [hdummy, Paje.mark, shows, Callback.stateid])
    | false =>
      -- the miss has to be one that is ignored
      have hignore : args.ignoreErrors = true := by
        rcases hready.answered with hno | hign | hans
        · exact absurd hno (by simp [hlinks])
        · exact hign
        · have hsome := hans _ rfl
          rw [← h.keys.resolve_left (by simp [hlinks]), hkey] at hsome
          exact absurd hsome (by simp)
      refine @Inv.event _ _ _ _ _ _ _ h hplain time rfl hnow (destination, destinationThread) rfl
        hdef { state := { st with
                 keys := (st.keys.call (.get (messageTriple source destination))).1
                 totalNumberOfLinksNotTranslated := st.totalNumberOfLinksNotTranslated + 1 }
               outs := [], result := 0 } ?_ rfl h.names (.inr (h.keys_of_op rfl hlinks)) rfl rfl
        (h.times.later hnow) (.inl rfl) rfl
      simp only [Callback.call, Tau.recvMessage, linkKeys_call, hlinks, hkey, hignore]
      rfl

theorem Inv.endTrace (h : Inv args r before outs now st) (hdummy : args.dummy = false)
    {nodeid threadid : UInt32} (hready : Ready args before (.endTrace nodeid threadid)) :
    Steps args r before outs now st (.endTrace nodeid threadid) := by
  have hplain : Plain args (.endTrace nodeid threadid) :=
    ⟨fun _ => rfl, fun _ => rfl, fun _ => rfl, fun _ _ _ => nofun⟩
  have hdef : Defined nodeid before := hready.defined (nodeid, threadid) rfl hplain.new
  obtain ⟨v, hv, -⟩ := h.times.known nodeid hdef
  refine ⟨{ state := { st with endOfTrace := true }
            outs := [.destroyContainer v sProcess (mpiProcess nodeid)], result := 0 }, ?_, ?_, ?_⟩
  · simp [Callback.call, Tau.endTrace, hdummy, hv]
  · refine ⟨fun p hp => ⟨(nodeid, threadid), rfl, ?_⟩, ⟨_, rfl, rfl⟩, rfl⟩
    rw [List.mem_singleton.mp hp]
    rfl
  · exact h.plain hplain rfl h.names (h.keys_of_op_none rfl) rfl rfl (h.times.emit hdef rfl hv)
      h.nonneg

theorem Inv.sized (h : Inv args r before outs now st) : Sized st (ranksAfter before) :=
  ⟨h.total, h.cells⟩

theorem Inv.defThread (h : Inv args r before outs now st) (hdummy : args.dummy = false)
    {nodeid threadToken : UInt32} {threadName : Str}
    (hready : Ready args before (.defThread nodeid threadToken threadName)) :
    Steps args r before outs now st (.defThread nodeid threadToken threadName) := by
  have hbound := hready.nodes
  rw [ranksAfter_snoc] at hbound
  obtain ⟨htotal, hlen, hkeep⟩ :=
    h.sized.grown (Nat.lt_of_le_of_lt (Nat.le_max_right _ _) hbound)
  have hlt : nodeid.toNat < (st.grown nodeid).2.length := by
    rw [hlen]
    exact Nat.lt_of_lt_of_le (Nat.lt_succ_self _) (Nat.le_max_right _ _)
  have hcall := (defThread_eq args st nodeid).trans (if_pos hlt)
  rw [if_neg (by simp [hdummy])] at hcall
  refine ⟨_, hcall, ⟨?_, ⟨_, rfl, rfl⟩, rfl⟩, ?_⟩
  · intro p hp
    rw [List.mem_singleton.mp hp]
    exact ⟨(nodeid, threadToken), rfl, rfl⟩
  · exact {
      resolution := by rw [resolutionAfter_snoc]; exact h.resolution
      names := by rw [namesAfter_snoc]; exact h.names
      keys := h.keys_of_op_none rfl
      total := by rw [ranksAfter_snoc]; exact htotal
      cells := by rw [ranksAfter_snoc]; exact (List.length_set ..).trans hlen
      times := h.times.define (hready.new _ _ _ rfl) h.nonneg hlt fun n hn =>
        hkeep _ hn.lt_ranksAfter
      nonneg := h.nonneg }

/-- A callback that is about no thread writes nothing. -/
theorem Inv.silent (h : Inv args r before outs now st) (hop : c.op = none)
    (hstate : c.stateid = none) (htime : c.time = none) (hranks : ∀ n, c.ranks n = n)
    (hnew : ∀ n tok name, c ≠ .defThread n tok name)
    (hend : ∀ n tok, c ≠ .endTrace n tok) {st' : State}
    (hcall : c.call args st = .ok { state := st', outs := [], result := 0 })
    (hres : st'.resolution = c.resolution st.resolution)
    (hnames : HTab.SameKeys st'.stateNameHash (c.names args (namesAfter args before)))
    (hkeys : st'.keys = st.keys) (htotal : st'.totalNumberOfRanks = st.totalNumberOfRanks)
    (hcells : st'.rankLastTime = st.rankLastTime) : Steps args r before outs now st c := by
  have hlife : Life [] c := by
    cases c with
    | defThread n tok name => exact absurd rfl (hnew n tok name)
    | endTrace n tok => exact absurd rfl (hend n tok)
    | _ => exact nofun
  refine ⟨_, hcall, ⟨nofun, hlife, by simp [shows, hstate]⟩, ?_⟩
  rw [List.append_nil, nowAfter, htime]
  exact {
    resolution := by rw [resolutionAfter_snoc, ← h.resolution]; exact hres
    names := by rw [namesAfter_snoc]; exact hnames
    keys := by
      have hsame := @Inv.keys_of_op_none _ _ _ _ _ _ c h hop
      rw [← hkeys] at hsame
      exact hsame
    total := by rw [ranksAfter_snoc, hranks, ← h.total]; exact congrArg Int32.toInt htotal
    cells := by rw [ranksAfter_snoc, hranks, ← h.cells]; exact congrArg List.length hcells
    times := by
      have htimes := h.times.skip hnew
      rw [← hcells] at htimes
      exact htimes
    nonneg := h.nonneg }

/-- **One callback.** -/
theorem Inv.step (h : Inv args r before outs now st) (hdummy : args.dummy = false)
    (hready : Ready args before c)
    (hnow : ∀ time ∈ c.time, now ≤ timeToSeconds st.resolution time) :
    Steps args r before outs now st c := by
  cases c with
  | clockPeriod clkPeriod =>
    exact h.silent rfl rfl rfl (fun _ => rfl) (fun _ _ _ => nofun) (fun _ _ => nofun) rfl rfl
      h.names rfl rfl rfl
  | defThread nodeid threadToken threadName => exact h.defThread hdummy hready
  | endTrace nodeid threadid => exact h.endTrace hdummy hready
  | defStateGroup _ _ | defUserEvent _ _ _ =>
    exact h.silent rfl rfl rfl (fun _ => rfl) (fun _ _ _ => nofun) (fun _ _ => nofun) rfl rfl
      h.names rfl rfl rfl
  | defState stateid statename group =>
    refine h.silent rfl rfl rfl (fun _ => rfl) (fun _ _ _ => nofun) (fun _ _ => nofun) rfl rfl
      ?_ rfl rfl rfl
    simp only [Callback.names, defineName]
    split
    · exact h.names
    · exact h.names.enter _ _
  | enterState time _ _ _ => exact h.enterState hdummy hready (hnow time rfl)
  | leaveState time _ _ _ => exact h.leaveState hdummy hready (hnow time rfl)
  | eventTrigger time _ _ _ _ => exact h.eventTrigger hready (hnow time rfl)
  | sendMessage time _ _ _ _ _ _ _ => exact h.sendMessage hdummy hready (hnow time rfl)
  | recvMessage time _ _ _ _ _ _ _ => exact h.recvMessage hdummy hready (hnow time rfl)

end Tau
end Akypuera

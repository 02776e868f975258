import Akypuera.Tau.Output
import Akypuera.Tau.Filters
import Akypuera.Tau.ReadLoop

/-!
# The TAU trace, read back

The states of a thread that are entered and left in turn are calls (`exists_tree`). Where a thread
has its node for itself and states are defined before they are entered, **a reader of the converted
trace gets these calls back**, with the names and the times in seconds, and without the states that
were left out: what was entered within one of them moves up (`nodes_read`).

The name of a state has to keep its `MPI` when it is normalized. Otherwise it is shown under two
names.
-/

set_option autoImplicit false

namespace Akypuera
namespace Tau

open CText Search Keys Scene Actors
open Converter (sZero akyPajeHierarchy)

/-! ## The calls of a thread -/

/-- What is entered and left by a thread. -/
def statesOf (t : Thread) (cs : List Callback) : List Callback :=
  (ofThread t cs).filter fun c => c.stateid.isSome

/-- A state is entered. -/
def entering (t : Thread) (stateid : UInt32) (time : ℚ) : List Callback :=
  [.enterState time t.1 t.2 stateid]

/-- A state is left. -/
def leaving (t : Thread) (stateid : UInt32) (time : ℚ) : List Callback :=
  [.leaveState time t.1 t.2 stateid]

/-- The marks of a thread, written out. -/
theorem items_marks (t : Thread) {cs before after : List Callback} (hcs : cs = before ++ after) :
    (marksFrom t before.length after).flatMap (Calls.item (entering t) (leaving t)
      (fun i => (cs[i]?.bind Callback.stateid).getD 0)
      fun i => (cs[i]?.bind Callback.time).getD 0) = statesOf t after := by
  induction after generalizing before with
  | nil => rfl
  | cons c after ih =>
    have hrest := @ih (before ++ [c]) (by rw [hcs, List.append_assoc]; rfl)
    rw [List.length_append, List.length_singleton] at hrest
    have hat : cs[before.length]? = some c := by
      rw [hcs, List.getElem?_append_right (le_refl _), Nat.sub_self, List.getElem?_cons_zero]
    rw [marksFrom, List.flatMap_append, hrest]
    by_cases ht : c.thread = some t
    · rw [if_pos ht, statesOf, statesOf, ofThread_cons_self ht, List.filter_cons]
      cases c with
      | enterState | leaveState =>
        cases ht
        simp [Callback.mark, Callback.stateid, Callback.time, Calls.item, Nesting.Mark.pick, hat,
          entering, leaving]
      | _ => rfl
    · have hnot : ofThread t (c :: after) = ofThread t after :=
        List.filter_cons_of_neg (by simpa using ht)
      rw [if_neg ht, statesOf, statesOf, hnot]
      rfl

/-- **The states of a thread are calls.** -/
theorem exists_tree {cs : List Callback} {t : Thread} (h : Disciplined cs t) :
    ∃ calls : Calls ℚ UInt32, calls.render (entering t) (leaving t) = statesOf t cs := by
  have hitems := items_marks t (List.nil_append cs).symm
  rw [← hitems]
  refine Calls.exists_calls _ _ _ _ (fun x hx => ?_) h.nested.1
  have hsame := h.nested.2 x hx
  unfold SameState at hsame
  cases hi : x.2 with
  | none => rw [hi] at hsame; exact hsame.elim
  | some i =>
    rw [hi] at hsame
    exact ⟨i, rfl, congrArg (Option.getD · 0) hsame⟩

/-! ## The names of states -/

/-- The state that a definition names, unless it is left out. -/
def Callback.definition (args : Arguments) : Callback → Option (UInt32 × Str)
  | defState stateid statename _ =>
      if args.onlyMpi ∧ ¬ strstr statename "MPI_".toList then none else some (stateid, statename)
  | _ => none

/-- The states that are defined, with their names. -/
def definitions (args : Arguments) (cs : List Callback) : List (UInt32 × Str) :=
  cs.filterMap (Callback.definition args)

/-- The name that a state is shown under, if it is shown. -/
def shownName (args : Arguments) (cs : List Callback) (stateid : UInt32) : Option Str :=
  if args.noStates then none
  else (HTab.firstOf (definitions args cs) stateid).map fun text => (nameEntered args text).2

variable {args : Arguments} {st : State} {c : Callback} {done : Done} {cs : List Callback}
  {resolution : ℚ}

theorem entries_eq (args : Arguments) (cs : List Callback) :
    cs.filterMap (Callback.entry args) =
      (definitions args cs).map fun d => (stateKey d.1, d.2) := by
  rw [definitions, List.map_filterMap]
  refine List.filterMap_congr fun c _ => ?_
  cases c with
  | defState stateid statename group =>
    rw [Callback.entry, Callback.definition]
    split <;> rfl
  | _ => rfl

/-- As long as there is room, every state is found under its name. -/
theorem find_definitions (hroom : (registered args cs).toFinset.card ≤ 1009) (s : UInt32) :
    (namesAfter args cs).find (stateKey s) = HTab.firstOf (definitions args cs) s := by
  rw [← card_entries] at hroom
  rw [namesAfter, names_eq, HTab.find_defineAll hroom, entries_eq,
    HTab.firstOf_map fun _ _ h => stateKey_inj h]

theorem nameEntered_plain (h : args.normalizeMpi = false) (text : Str) :
    nameEntered args text = (text, text) := if_neg (by simp [h])

/-- The second time leaves the text as it is. -/
theorem nameEntered_again (text : Str) :
    (nameEntered args (nameEntered args text).1).1 = (nameEntered args text).1 := by
  cases h : args.normalizeMpi with
  | false => rw [nameEntered_plain h, nameEntered_plain h]
  | true => rw [nameEntered_eq h, nameEntered_eq h, entered_entered]

/-- **What the static data show of states**: their names, however often they were entered, and the
    times in a resolution. -/
structure Named (args : Arguments) (name : UInt32 → Option Str) (r : Resolution) (st : State) :
    Prop where
  resolution : st.resolution = r
  names : ∀ s, (st.stateNameHash.find (stateKey s)).map (fun text => (nameEntered args text).2) =
    name s
  settled : ∀ s text, st.stateNameHash.find (stateKey s) = some text →
    (nameEntered args (nameEntered args text).1).2 = (nameEntered args text).2

variable {name : UInt32 → Option Str} {r : Resolution}

theorem Named.of_eq (h : Named args name r st) {st' : State}
    (hres : st'.resolution = st.resolution) (hnames : st'.stateNameHash = st.stateNameHash) :
    Named args name r st' where
  resolution := hres.trans h.resolution
  names := by rw [hnames]; exact h.names
  settled := by rw [hnames]; exact h.settled

/-- A callback that sets what states are called, or in what times are. -/
def Callback.isDefinition : Callback → Bool
  | clockPeriod _ | defState _ _ _ => true
  | _ => false

/-- **Events do not change the names.** -/
theorem Effect.named (h : Effect args st c done) (hc : c.isDefinition = false)
    (hnamed : Named args name r st) : Named args name r done.state := by
  cases h with
  | clockPeriod | defState => cases hc
  | @enterState time nodeid tid stateid text hfind hlt =>
    have hself := HTab.find_set_self st.stateNameHash (stateKey stateid) (nameEntered args text).1
    have hone : (nameEntered args (nameEntered args text).1).2 = (nameEntered args text).2 :=
      hnamed.settled stateid text hfind
    refine ⟨hnamed.resolution, fun s => ?_, fun s text' hs => ?_⟩
    · show ((st.stateNameHash.set (stateKey stateid) (nameEntered args text).1).find
        (stateKey s)).map _ = _
      rw [← hnamed.names s]
      by_cases heq : stateKey s = stateKey stateid
      · rw [heq, hself, hfind, Option.map_some, Option.map_some, hone]
      · rw [HTab.find_set_ne _ _ heq]
    · have hs : (st.stateNameHash.set (stateKey stateid) (nameEntered args text).1).find
          (stateKey s) = some text' := hs
      by_cases heq : stateKey s = stateKey stateid
      · rw [heq, hself] at hs
        rw [← Option.some.inj hs, nameEntered_again]
      · rw [HTab.find_set_ne _ _ heq] at hs
        exact hnamed.settled s text' hs
  | _ => exact hnamed.of_eq rfl rfl

/-- Before the first event, the names are those that were defined. -/
theorem run_definitions {defs : List Callback} (hdefs : ∀ c ∈ defs, c.time = none)
    (hstop : (run args st defs).stop = none) :
    (run args st defs).state.stateNameHash =
        defs.foldl (Callback.names args) st.stateNameHash ∧
      (run args st defs).state.resolution = defs.foldl Callback.resolution st.resolution := by
  induction defs generalizing st with
  | nil => exact ⟨rfl, rfl⟩
  | cons c defs ih =>
    cases hcall : c.call args st with
    | error stop =>
      rw [run_error hcall] at hstop
      cases hstop
    | ok done =>
      have heff := call_iff_effect.mp hcall
      have htime := hdefs c List.mem_cons_self
      rw [run_ok hcall] at hstop ⊢
      have hhere : done.state.stateNameHash = c.names args st.stateNameHash := by
        cases heff with
        | unknown hstate =>
          cases c with
          | enterState | leaveState => cases htime
          | _ => cases hstate
        | noLinks hop =>
          cases c with
          | sendMessage | recvMessage => cases htime
          | _ => cases hop
        | enterState | leaveState | eventTrigger | sendMessage | recvMessage | recvMissed =>
          cases htime
        | _ => rfl
      have hrest := ih (fun c' hc' => hdefs c' (List.mem_cons_of_mem _ hc')) hstop
      rw [hhere, heff.resolution] at hrest
      exact hrest

/-- **From the first event on**, states are shown under the names of their definitions. -/
theorem named_definitions {defs : List Callback} (hdefs : ∀ c ∈ defs, c.time = none)
    (hstop : (run args (State.init resolution) defs).stop = none)
    (hroom : (registered args defs).toFinset.card ≤ 1009)
    (hkeeps : args.normalizeMpi = true → ∀ d ∈ definitions args defs, KeepsMpi d.2) :
    Named args
      (fun s => (HTab.firstOf (definitions args defs) s).map fun text => (nameEntered args text).2)
      (resolutionAfter (.finite resolution) defs) (run args (State.init resolution) defs).state := by
  obtain ⟨hhash, hres⟩ := run_definitions hdefs hstop
  have hnames : (run args (State.init resolution) defs).state.stateNameHash =
      namesAfter args defs := by
    rw [hhash, State.init, StateOf.init, hcreateSize_1000]
    rfl
  refine ⟨hres, fun s => ?_, fun s text hs => ?_⟩
  · rw [hnames, find_definitions hroom]
  · rw [hnames, find_definitions hroom] at hs
    cases h : args.normalizeMpi with
    | false => rw [nameEntered_plain h, nameEntered_plain h]
    | true =>
      rw [nameEntered_eq h, nameEntered_eq h]
      exact (entered_snd_iff text).mpr (hkeeps h _ (HTab.mem_of_firstOf hs))

/-! ## Acts -/

/-- What a reader sees of a callback, when states have these names. -/
def Callback.shownMark (name : UInt32 → Option Str) (r : Resolution) :
    Callback → Option (Calls.Mark ℚ Str)
  | enterState time _ _ stateid =>
      (name stateid).map fun text => .enter (timeToSeconds r time) text
  | leaveState time _ _ stateid => (name stateid).map fun _ => .leave (timeToSeconds r time)
  | _ => none

/-- **What it sees of an act** is what it sees of the callback. -/
theorem mark_act (h : c.time = none ∨ Named args name r st) :
    (c.act args st).bind (fun e => e.2.mark) =
      c.shownMark (fun s => if args.noStates then none else name s) r := by
  cases c with
  | enterState time nodeid tid stateid | leaveState time nodeid tid stateid =>
    have hnamed := h.resolve_left (Option.some_ne_none time)
    rw [Callback.act, Callback.shownMark, ← hnamed.names, hnamed.resolution]
    cases args.noStates with
    | true => rfl
    | false => cases st.stateNameHash.find (stateKey stateid) <;> rfl
  | endTrace nodeid threadid =>
    rw [Callback.act]
    cases st.rankLastTime.read nodeid.toNat <;> rfl
  | sendMessage =>
    rw [Callback.act]
    cases args.noLinks <;> rfl
  | recvMessage =>
    simp only [Callback.act]
    split <;> rfl
  | _ => rfl

/-- Part by part. -/
theorem visits_append {st : State} {cs : List Callback} (h : (run args st cs).stop = none)
    (cs' : List Callback) :
    visits args st (cs ++ cs') = visits args st cs ++ visits args (run args st cs).state cs' := by
  induction cs generalizing st with
  | nil => rfl
  | cons c cs ih =>
    cases hcall : c.call args st with
    | error stop =>
      rw [run_error hcall] at h
      cases h
    | ok done =>
      rw [run_ok hcall] at h ⊢
      rw [List.cons_append, visits_ok hcall, visits_ok hcall, ih h]
      rfl

theorem visits_named {st : State} (hnamed : Named args name r st) {cs : List Callback}
    (hcs : ∀ c ∈ cs, c.isDefinition = false) : ∀ x ∈ visits args st cs, Named args name r x.2 := by
  induction cs generalizing st with
  | nil => exact List.forall_mem_nil _
  | cons c cs ih =>
    cases hcall : c.call args st with
    | error stop =>
      rw [visits_error hcall]
      exact List.forall_mem_nil _
    | ok done =>
      have hnext := (call_iff_effect.mp hcall).named (hcs c List.mem_cons_self) hnamed
      rw [visits_ok hcall]
      exact List.forall_mem_cons.mpr
        ⟨hnamed, ih hnext fun c' hc' => hcs c' (List.mem_cons_of_mem _ hc')⟩

/-- An act is one of the node that the callback is about. -/
theorem node_act {e : UInt32 × Act ℚ Str Tip} (h : c.act args st = some e) :
    ∃ t ∈ c.thread, e.1 = t.1 := by
  cases c with
  | defThread =>
    cases h
    exact ⟨_, rfl, rfl⟩
  | endTrace =>
    obtain ⟨time, -, rfl⟩ := Option.map_eq_some_iff.mp h
    exact ⟨_, rfl, rfl⟩
  | enterState | leaveState =>
    rw [Callback.act, ite_eq_iff] at h
    rcases h with ⟨-, h⟩ | ⟨-, h⟩
    · cases h
    · obtain ⟨text, -, rfl⟩ := Option.map_eq_some_iff.mp h
      exact ⟨_, rfl, rfl⟩
  | sendMessage | recvMessage =>
    simp only [Callback.act, ite_eq_iff] at h
    rcases h with ⟨-, h⟩ | ⟨-, h⟩
    · cases h
    · cases h
      exact ⟨_, rfl, rfl⟩
  | _ => cases h

/-- An event starts and ends no life. -/
theorem isInner_act (hc : c.isEvent = true) {e : UInt32 × Act ℚ Str Tip}
    (h : c.act args st = some e) : e.2.isInner = true := by
  cases c with
  | enterState | leaveState =>
    rw [Callback.act, ite_eq_iff] at h
    rcases h with ⟨-, h⟩ | ⟨-, h⟩
    · cases h
    · obtain ⟨text, -, rfl⟩ := Option.map_eq_some_iff.mp h
      rfl
  | sendMessage | recvMessage =>
    simp only [Callback.act, ite_eq_iff] at h
    rcases h with ⟨-, h⟩ | ⟨-, h⟩
    · cases h
    · cases h
      rfl
  | eventTrigger => cases h
  | _ => cases hc

/-! ## A thread -/

/-- The acts of the callbacks in `v`, with the static data they were called in. -/
def actsIn (args : Arguments) (v : List (Callback × State)) : List (Act ℚ Str Tip) :=
  (v.filterMap fun x => x.1.act args x.2).map Prod.snd

theorem actsIn_cons (x : Callback × State) (v : List (Callback × State)) :
    actsIn args (x :: v) = ((x.1.act args x.2).map Prod.snd).toList ++ actsIn args v := by
  rw [actsIn, List.filterMap_cons]
  cases x.1.act args x.2 <;> rfl

theorem died_act (hdummy : args.dummy = false) {nodeid threadid : UInt32}
    (h : Effect args st (.endTrace nodeid threadid) done) :
    ∃ time, (Callback.endTrace nodeid threadid).act args st = some (nodeid, .died time) := by
  cases h with
  | endTraceDummy h => exact absurd (h.symm.trans hdummy) (by simp)
  | endTrace _ hread => exact ⟨_, by rw [Callback.act, hread]; rfl⟩
  | unknown hstate => cases hstate
  | noLinks hop => cases hop

/-- After its definition a thread has events, and it dies. -/
theorem acts_framedBody (hdummy : args.dummy = false) {v : List (Callback × State)}
    (heff : ∀ x ∈ v, ∃ done, Effect args x.2 x.1 done) (h : framedBody (v.map Prod.fst) = true) :
    ∃ inner died, actsIn args v = inner ++ [.died died] ∧ ∀ a ∈ inner, a.isInner = true := by
  induction v with
  | nil => exact absurd h (by simp [framedBody])
  | cons x v ih =>
    obtain ⟨c, st⟩ := x
    obtain ⟨done, hhere⟩ := heff (c, st) List.mem_cons_self
    rw [actsIn_cons]
    rcases framedBody_cons h with ⟨hnil, n, tok, rfl⟩ | ⟨-, hevent, hrest⟩
    · obtain ⟨died, hdied⟩ := died_act hdummy hhere
      refine ⟨[], died, ?_, List.forall_mem_nil _⟩
      rw [List.map_eq_nil_iff.mp hnil, hdied]
      rfl
    · obtain ⟨inner, died, hbody, hinner⟩ :=
        ih (fun x hx => heff x (List.mem_cons_of_mem _ hx)) hrest
      refine ⟨((c.act args st).map Prod.snd).toList ++ inner, died,
        by rw [hbody, List.append_assoc], fun a ha => ?_⟩
      rcases List.mem_append.mp ha with ha | ha
      · obtain ⟨e, he, rfl⟩ := Option.map_eq_some_iff.mp (Option.mem_toList.mp ha)
        exact isInner_act hevent he
      · exact hinner a ha

/-- **The life of a thread.** -/
theorem acts_framed (hdummy : args.dummy = false) {v : List (Callback × State)}
    (heff : ∀ x ∈ v, ∃ done, Effect args x.2 x.1 done) (h : framed (v.map Prod.fst) = true) :
    ∃ inner died, actsIn args v = .born 0 :: inner ++ [.died died] ∧
      ∀ a ∈ inner, a.isInner = true := by
  cases v with
  | nil => exact absurd h (by simp [framed])
  | cons x v =>
    obtain ⟨c, st⟩ := x
    cases c with
    | defThread n tok name =>
      obtain ⟨inner, died, hbody, hinner⟩ :=
        acts_framedBody hdummy (fun x hx => heff x (List.mem_cons_of_mem _ hx)) h
      exact ⟨inner, died, by rw [actsIn_cons, hbody]; rfl, hinner⟩
    | _ => exact absurd h (by simp [framed])

/-- The calls that are shown, with their names and times. -/
def shownCalls (name : UInt32 → Option Str) (r : Resolution) (calls : Calls ℚ UInt32) :
    Calls ℚ Str :=
  (calls.keep fun s => (name s).isSome).map (timeToSeconds r) fun s => (name s).getD []

/-- **What a reader sees of the states of a thread** are the calls that are shown. -/
theorem marks_shown (t : Thread) (name : UInt32 → Option Str) (r : Resolution)
    (calls : Calls ℚ UInt32) :
    (calls.render (entering t) (leaving t)).filterMap (Callback.shownMark name r) =
      (shownCalls name r calls).marks := by
  rw [Calls.filterMap_render, shownCalls, Calls.marks, Calls.render_map, Calls.render_keep]
  refine Calls.render_congr fun s _ time => ?_
  cases h : name s <;> simp [entering, leaving, Callback.shownMark, h]

/-- States apart, a thread shows no marks. -/
theorem filterMap_statesOf (t : Thread) (cs : List Callback) (name : UInt32 → Option Str)
    (r : Resolution) : (ofThread t cs).filterMap (Callback.shownMark name r) =
      (statesOf t cs).filterMap (Callback.shownMark name r) := by
  rw [statesOf, List.filterMap_filter]
  refine List.filterMap_congr fun c _ => ?_
  cases c <;> rfl

/-- **From its definition to its end**, the acts of a thread are its calls that are shown. -/
theorem stage_thread (hdummy : args.dummy = false) {t : Thread} {v : List (Callback × State)}
    (heff : ∀ x ∈ v, ∃ done, Effect args x.2 x.1 done) {shown : UInt32 → Option Str}
    (hmarks : ∀ x ∈ v, (x.1.act args x.2).bind (fun e => e.2.mark) = x.1.shownMark shown r)
    (hframed : framed (v.map Prod.fst) = true) {cs : List Callback}
    (hcs : v.map Prod.fst = ofThread t cs) {calls : Calls ℚ UInt32}
    (hcalls : calls.render (entering t) (leaving t) = statesOf t cs) :
    ∃ died, Stage.absent.run (actsIn args v) = some (.gone 0 (shownCalls shown r calls) died) := by
  obtain ⟨inner, died, hacts, hinner⟩ := acts_framed hdummy heff hframed
  refine ⟨died, ?_⟩
  have hboth : (actsIn args v).filterMap Act.mark = inner.filterMap Act.mark := by
    rw [hacts, List.cons_append, List.filterMap_cons_none rfl, List.filterMap_append]
    exact List.append_nil _
  have hsame : (actsIn args v).filterMap Act.mark =
      (v.map Prod.fst).filterMap (Callback.shownMark shown r) := by
    rw [actsIn, List.filterMap_map, List.filterMap_filterMap, List.filterMap_map]
    exact List.filterMap_congr hmarks
  rw [hacts]
  refine Stage.run_whole hinner ?_
  rw [← hboth, hsame, hcs, filterMap_statesOf, ← hcalls, marks_shown]

/-! ## All nodes -/

/-- The lines of a container are those that are about its node. -/
theorem lines_about (hdummy : args.dummy = false)
    (hstop : (run args (State.init resolution) cs).stop = none) (n : UInt32) :
    ((lines args resolution cs).filter fun line => line.container = some (mpiProcess n)).filterMap
        Line.time =
      (about n (run args (State.init resolution) cs).trace).map Paje.time := by
  have hheader : (akyPajeHierarchy.map (Converter.Definition.line (τ := ℚ))).filter
      (fun line => line.container = some (mpiProcess n)) = [] := by
    refine List.filter_eq_nil_iff.mpr fun line hline => ?_
    obtain ⟨d, -, rfl⟩ := List.mem_map.mp hline
    cases d <;> simp [Converter.Definition.line, Line.container]
  have hroot : ¬ sRoot = mpiProcess n := fun h => mpiProcess_ne_root n h.symm
  have hlines : ∀ ps : List Paje, ((ps.map Paje.line).filter fun line =>
      line.container = some (mpiProcess n)).filterMap Line.time = (about n ps).map Paje.time := by
    intro ps
    have htime : Line.time ∘ Paje.line = some ∘ Paje.time := funext time_line
    rw [List.filter_map, List.filterMap_map, htime, ← List.filterMap_eq_map, about]
    simp only [Function.comp_def, container_line, Option.some.injEq]
  rw [lines_eq hdummy hstop, ← trace_eq hdummy, List.filter_append, hheader, List.nil_append,
    List.filter_cons_of_neg (by simpa [Line.container] using hroot), List.filter_append,
    List.filter_cons_of_neg (by simpa [Line.container] using hroot), List.filter_nil,
    List.append_nil, hlines]

/-- **A node by itself**: its thread's calls, or nothing. -/
theorem stage_node (hdummy : args.dummy = false) (halone : Alone cs)
    (hdisc : ∀ t ∈ threads cs, Disciplined cs t) {v : List (Callback × State)}
    (hcs : v.map Prod.fst = cs) (heff : ∀ x ∈ v, ∃ done, Effect args x.2 x.1 done)
    {shown : UInt32 → Option Str}
    (hmarks : ∀ x ∈ v, (x.1.act args x.2).bind (fun e => e.2.mark) = x.1.shownMark shown r)
    (n : UInt32) :
    ∃ stage, Stage.absent.run (actsBy n (v.filterMap fun x => x.1.act args x.2)) = some stage ∧
      (∀ t ∈ threads cs, t.1 = n → ∃ calls died,
        calls.render (entering t) (leaving t) = statesOf t cs ∧
          stage = .gone 0 (shownCalls shown r calls) died) ∧
      ((∀ t ∈ threads cs, t.1 ≠ n) → stage = .absent) := by
  have hthread : ∀ x ∈ v, ∀ t ∈ x.1.thread, t ∈ threads cs := fun x hx t ht =>
    mem_threads (hcs ▸ List.mem_map_of_mem hx) ht
  by_cases hn : ∃ t ∈ threads cs, t.1 = n
  · obtain ⟨t, ht, rfl⟩ := hn
    have hown : actsBy t.1 (v.filterMap fun x => x.1.act args x.2) =
        actsIn args (v.filter fun x => x.1.thread = some t) := by
      refine actsBy_filterMap fun x hx e he => ?_
      obtain ⟨t', ht', hnode⟩ := node_act he
      rw [hnode, ht', Option.some.injEq]
      exact ⟨halone t' (hthread x hx t' ht') t ht, fun h => h ▸ rfl⟩
    have hof : (v.filter fun x => x.1.thread = some t).map Prod.fst = ofThread t cs := by
      rw [← hcs, ofThread, List.filter_map]
      rfl
    obtain ⟨calls, hcalls⟩ := exists_tree (hdisc t ht)
    obtain ⟨died, hrun⟩ := stage_thread hdummy (fun x hx => heff x (List.mem_of_mem_filter hx))
      (fun x hx => hmarks x (List.mem_of_mem_filter hx)) (hof ▸ (hdisc t ht).framed) hof hcalls
    refine ⟨_, hown ▸ hrun, fun t' ht' hnode => ?_, fun hnone => absurd rfl (hnone t ht)⟩
    obtain rfl := halone t' ht' t ht hnode
    exact ⟨calls, died, hcalls, rfl⟩
  · have hnone : actsBy n (v.filterMap fun x => x.1.act args x.2) = [] := by
      rw [actsBy_filterMap (P := fun _ => False)]
      · rw [List.filter_eq_nil_iff.mpr fun _ _ => by simp]
        rfl
      · intro x hx e he
        obtain ⟨t, ht, hnode⟩ := node_act he
        exact ⟨fun heq => hn ⟨t, hthread x hx t ht, hnode.symm.trans heq⟩, False.elim⟩
    refine ⟨.absent, hnone ▸ rfl, fun t ht hnode => absurd ⟨t, ht, hnode⟩ hn, fun _ => rfl⟩

end Tau
end Akypuera

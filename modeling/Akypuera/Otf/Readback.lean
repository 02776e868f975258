import Akypuera.Otf.Output

/-!
# The OTF trace, read back

The records of an OTF trace say of each process that it begins, enters and leaves functions, and
ends (`Callback.act`). **The converted trace is accepted exactly when they make sense**, process by
process, and no value is defined twice (`accepted_iff`). What is read of a process is then its name,
the time it began and ended at, and its calls with the names of the functions, in seconds
(`processes_read`).

A process without a name is not shown when it begins and ends, so its calls are refused.
-/

set_option autoImplicit false

namespace Akypuera
namespace Otf

open CText Search Keys Scene Actors
open Converter (sROOT sZero akyWorld akyTypes akyPajeHierarchy run_hierarchy)

/-! ## Events -/

/-- What is written for an event: an act of a process, unless it is left out. -/
def Callback.act (args : Arguments) (hash : HTab Str Str) :
    Callback → Option (UInt32 × Act UInt64 UInt32 Empty)
  | enter time function process =>
      if args.noStates then none else some (process, .enter time function)
  | leave time process => if args.noStates then none else some (process, .leave time)
  | beginProcess time process =>
      if (dataGet hash process).isSome then some (process, .born time) else none
  | endProcess time process =>
      if (dataGet hash process).isSome then some (process, .died time) else none
  | _ => none

/-- The acts of events that come after some definitions. -/
def acts (args : Arguments) (defs evs : List Callback) : List (UInt32 × Act UInt64 UInt32 Empty) :=
  evs.filterMap (Callback.act args (State.init.after args defs).processNameHash)

/-- How the acts are written. -/
def cast (st : State) : Cast UInt32 UInt64 UInt32 Empty Str Seconds where
  aliasOf := aliasOf 'p'
  nameOf process := (dataGet st.processNameHash process).getD []
  type := sProcess
  parent _ := sRoot
  state := sState
  value := aliasOf 'f'
  time := ticksToSeconds st.timeResolution
  note _ m := m.elim

variable {args : Arguments}

/-- An event changes the clock only. -/
theorem call_event (st : State) {c : Callback} (h : c.isDefinition = false) :
    ∃ time, (c.call args st).1 = { st with lastTime := time } := by
  have hat : ∀ quiet ticks event, ∃ time,
      (st.at quiet ticks event).1 = { st with lastTime := time } := by
    intro quiet ticks event
    unfold State.at
    split
    · exact ⟨st.lastTime, rfl⟩
    · exact ⟨_, rfl⟩
  cases c with
  | enter time function process => exact hat _ _ _
  | leave time process => exact hat _ _ _
  | beginProcess time process =>
    rw [Callback.call, beginProcess]
    split
    · exact hat _ _ _
    · exact ⟨st.lastTime, rfl⟩
  | endProcess time process =>
    rw [Callback.call, endProcess]
    split
    · exact hat _ _ _
    · exact ⟨st.lastTime, rfl⟩
  | _ => cases h

/-- **Events write their acts.** -/
theorem lines_events (hdummy : args.dummy = false) (st : State) {cs : List Callback}
    (h : ∀ c ∈ cs, c.isDefinition = false) :
    (run args st cs).2.filterMap Paje.line =
      (cs.filterMap (Callback.act args st.processNameHash)).map (cast st).line := by
  induction cs generalizing st with
  | nil => rfl
  | cons c cs ih =>
    have hc := h c List.mem_cons_self
    have hone : (c.call args st).2.filterMap Paje.line =
        (c.act args st.processNameHash).toList.map (cast st).line := by
      cases c with
      | enter time function process =>
        cases hs : args.noStates <;> simp [Callback.call, State.at, Callback.act, hdummy, hs,
          Paje.line, cast, Cast.line]
      | leave time process =>
        cases hs : args.noStates <;> simp [Callback.call, State.at, Callback.act, hdummy, hs,
          Paje.line, cast, Cast.line]
      | beginProcess time process =>
        rw [Callback.call, beginProcess, Callback.act]
        cases hname : dataGet st.processNameHash process <;>
          simp [State.at, hdummy, Paje.line, cast, Cast.line, hname]
      | endProcess time process =>
        rw [Callback.call, endProcess, Callback.act]
        cases hname : dataGet st.processNameHash process <;>
          simp [State.at, hdummy, Paje.line, cast, Cast.line]
      | _ => cases hc
    obtain ⟨time, hst⟩ := @call_event args st c hc
    have hrest := @ih (c.call args st).1 fun c' hc' => h c' (List.mem_cons_of_mem _ hc')
    rw [hst] at hrest
    show ((c.call args st).2 ++ (run args (c.call args st).1 cs).2).filterMap Paje.line = _
    rw [List.filterMap_append, hone, hst, hrest, List.filterMap_cons]
    cases c.act args st.processNameHash <;> rfl

/-! ## The whole trace -/

/-- What a reader knows when the definitions are read, the root apart. -/
def definedWorld (args : Arguments) (defs : List Callback) : World Str Seconds :=
  ⟨sZero, akyTypes.addValues sState (values args defs), fun _ => .absent⟩

theorem aliasOf_head (letter : Char) (id : UInt32) : (aliasOf letter id).head? = some letter := by
  rw [aliasOf, fit_of_length_lt (length_aliasOf letter id)]
  rfl

theorem aliasOf_ne_zero (id : UInt32) : aliasOf 'p' id ≠ sZero := by
  intro h
  have hhead := aliasOf_head 'p' id
  rw [h] at hhead
  exact absurd hhead (by decide)

theorem aliasOf_ne_root (id : UInt32) : aliasOf 'p' id ≠ sRoot := by
  intro h
  have hhead := aliasOf_head 'p' id
  rw [h] at hhead
  exact absurd hhead (by decide)

theorem sRoot_ne_sZero : sRoot ≠ sZero := by decide

/-- **There is room for all processes** under the root. -/
theorem cast_fits (st : State) (defs : List Callback) :
    (cast st).Fits ((definedWorld args defs).withRoot sRoot sROOT sRoot (.finite 0)) where
  inj _ _ h := (aliasOf_inj h).2
  top := aliasOf_ne_zero
  parent process _ := aliasOf_ne_root process
  under _ := by
    refine ⟨(sProcess, sROOT), ?_, rfl, World.typeOf_root sRoot_ne_sZero sROOT sRoot (.finite 0)⟩
    show (sProcess, sROOT) ∈ akyTypes.containers
    decide
  state := by
    show (sState, sProcess) ∈ akyTypes.states
    decide
  note _ m := m.elim

/-- What a reader knows at the end, when the processes are at these stages. -/
noncomputable def finalWorld (args : Arguments) (defs evs : List Callback)
    (s : UInt32 → Stage UInt64 UInt32) : World Str Seconds :=
  ((cast (State.init.after args defs)).put (definedWorld args defs) s).withoutRoot sRoot sROOT sRoot
    (.finite 0) (State.init.after args (defs ++ evs)).lastTime

theorem finalWorld_life (defs evs : List Callback) (s : UInt32 → Stage UInt64 UInt32)
    (process : UInt32) : (finalWorld args defs evs s).life (aliasOf 'p' process) =
      (cast (State.init.after args defs)).life (definedWorld args defs).types process
        (s process) :=
  Cast.life_withoutRoot (fun _ _ h => (aliasOf_inj h).2) (aliasOf_ne_root process) _ _ _ _ _

section
variable (hdummy : args.dummy = false) {defs evs : List Callback}
  (hdefs : ∀ c ∈ defs, c.isDefinition = true) (hevs : ∀ c ∈ evs, c.isDefinition = false)
include hdummy hdefs hevs

theorem lines_eq : lines args (defs ++ evs) = akyPajeHierarchy.map Converter.Definition.line ++
    (.create (.finite 0) sRoot sROOT sZero sRoot ::
      ((values args defs).map (fun v => .value v.1 sState v.2) ++
        ((acts args defs evs).map (cast (State.init.after args defs)).line ++
          [.destroy (State.init.after args (defs ++ evs)).lastTime sROOT sRoot]))) := by
  have hheader : (akyPajeHierarchy.map (Sum.inl (β := Paje))).filterMap
      (Sum.elim (some ∘ Converter.Definition.line) Paje.line) =
      akyPajeHierarchy.map Converter.Definition.line := by
    rw [List.filterMap_map, Sum.elim_comp_inl, List.filterMap_eq_map]
  have houts : ∀ outs : List Paje, (outs.map (Sum.inr (α := Converter.Definition))).filterMap
      (Sum.elim (some ∘ Converter.Definition.line) Paje.line) = outs.filterMap Paje.line := by
    intro outs
    rw [List.filterMap_map, Sum.elim_comp_inr]
  have hrun : (run args State.init (defs ++ evs)).2.filterMap Paje.line =
      (values args defs).map (fun v => .value v.1 sState v.2) ++
        (acts args defs evs).map (cast (State.init.after args defs)).line := by
    rw [run_append, List.filterMap_append, lines_definitions hdummy _ hdefs, run_fst,
      lines_events hdummy _ hevs]
    rfl
  have hout : output args (defs ++ evs) = akyPajeHierarchy.map .inl ++
      .inr (.createContainer (.finite 0) sRoot sROOT sZero sRoot) ::
        (run args State.init (defs ++ evs)).2.map .inr ++
      [.inr (.destroyContainer (State.init.after args (defs ++ evs)).lastTime sROOT sRoot)] := by
    rw [output, ← run_fst]
    simp only [hdummy, Bool.false_eq_true, if_false]
  have hroot := List.filterMap_cons_some (f := Sum.elim (some ∘ Converter.Definition.line) Paje.line)
    (a := .inr (.createContainer (.finite 0) sRoot sROOT sZero sRoot))
    (l := (run args State.init (defs ++ evs)).2.map .inr) rfl
  rw [lines, hout, List.append_assoc, List.filterMap_append, hheader, List.filterMap_append, hroot,
    houts, hrun, List.cons_append, List.append_assoc]
  rfl

/-- **The reader follows the processes**, whatever they do. -/
theorem run_lines : (World.start sZero).run (lines args (defs ++ evs)) =
    if ((definedWorld args defs).types.values.map Prod.fst).Nodup then
      (Actors.run (fun _ => .absent) (acts args defs evs)).map (finalWorld args defs evs)
    else none := by
  have hroot := @World.create_root Str Seconds _ akyWorld sRoot sROOT (by decide) sRoot_ne_sZero rfl
    sRoot (.finite 0)
  have hvalues : (akyWorld.withRoot sRoot sROOT sRoot (Seconds.finite 0)).run
      ((values args defs).map fun v => .value v.1 sState v.2) =
        if ((definedWorld args defs).types.values.map Prod.fst).Nodup then
          some ((definedWorld args defs).withRoot sRoot sROOT sRoot (.finite 0))
        else none := World.run_values (by decide) (values args defs) List.nodup_nil
  rw [lines_eq hdummy hdefs hevs, World.run_append, run_hierarchy, Option.bind_some,
    World.run_cons, show sZero = (akyWorld : World Str Seconds).top from rfl, hroot,
    Option.bind_some, World.run_append, hvalues]
  by_cases hnodup : ((definedWorld args defs).types.values.map Prod.fst).Nodup
  · rw [if_pos hnodup, if_pos hnodup]
    exact Cast.run_rooted (fun _ => rfl) (cast_fits (State.init.after args defs) defs) (fun _ => rfl) _ _
  · rw [if_neg hnodup, if_neg hnodup]
    rfl

end

theorem nodup_definedWorld (defs : List Callback) :
    ((definedWorld args defs).types.values.map Prod.fst).Nodup ↔
      args.noStates = true ∨ (tokens defs).Nodup := by
  have hkeys : (definedWorld args defs).types.values.map Prod.fst =
      ((values args defs).map Prod.fst).map (sState, ·) := by
    show List.map Prod.fst ([] ++ (values args defs).map fun v => ((sState, v.1), v.2)) = _
    rw [List.nil_append, List.map_map, List.map_map]
    rfl
  rw [hkeys, List.nodup_map_iff (fun _ _ h => (Prod.mk.inj h).2), values]
  cases args.noStates with
  | true => simp
  | false => simpa using nodup_values defs

/-- **What makes sense is accepted, and nothing else**: every process begins once, returns from
    what it entered before it ends, and does nothing before or after. For any definitions and
    events, in any order, with any flags but `--dummy`. -/
theorem accepted_iff (args : Arguments) (hdummy : args.dummy = false) {defs evs : List Callback}
    (hdefs : ∀ c ∈ defs, c.isDefinition = true) (hevs : ∀ c ∈ evs, c.isDefinition = false) :
    (∃ w, (World.start sZero).run (lines args (defs ++ evs)) = some w) ↔
      (args.noStates = true ∨ (tokens defs).Nodup) ∧
        ∀ process, ∃ stage, Stage.absent.run (actsBy process (acts args defs evs)) = some stage := by
  rw [run_lines hdummy hdefs hevs, ← nodup_definedWorld, ← exists_run_iff]
  by_cases hnodup : ((definedWorld args defs).types.values.map Prod.fst).Nodup
  · rw [if_pos hnodup]
    simp only [Option.map_eq_some_iff, hnodup, true_and]
    exact ⟨fun ⟨_, s, hs, _⟩ => ⟨s, hs⟩, fun ⟨s, hs⟩ => ⟨_, s, hs, rfl⟩⟩
  · rw [if_neg hnodup]
    simp [hnodup]

/-- Two processes and two functions. -/
def twoProcesses : List Callback :=
  [.defTimerResolution 1000, .defProcess 1 "a".toList, .defProcess 2 "b".toList,
   .defFunction 7 "main".toList, .defFunction 8 "MPI_Send".toList]

/-- A return without a call is refused. -/
theorem accepted_iff_strayLeave : ¬ ∃ w, (World.start sZero).run (lines plainly
    (twoProcesses ++ [.beginProcess 0 1, .beginProcess 1 2, .enter 2 7 2, .leave 3 1])) =
      some w := by
  intro h
  have hrefused : Stage.absent.run (actsBy 1 (acts plainly twoProcesses
      [.beginProcess 0 1, .beginProcess 1 2, .enter 2 7 2, .leave 3 1])) = none := by
    decide +kernel
  obtain ⟨stage, hstage⟩ := ((accepted_iff plainly rfl (by decide) (by decide)).mp h).2 1
  rw [hrefused] at hstage
  exact Option.some_ne_none stage hstage.symm

/-! ## Calls -/

/-- What a process does: it begins, calls functions and ends, all at some ticks. -/
structure Process where
  begins : UInt64
  calls : Calls UInt64 UInt32
  ends : UInt64

/-- Its records. -/
def Process.records (x : Process) (process : UInt32) : List Callback :=
  .beginProcess x.begins process ::
    x.calls.render (fun function time => [.enter time function process])
      (fun _ time => [.leave time process]) ++ [.endProcess x.ends process]

/-- The process that an event is about. -/
def Callback.process : Callback → Option UInt32
  | enter _ _ process | leave _ process | beginProcess _ process | endProcess _ process =>
      some process
  | _ => none

/-- The events of a process. -/
def recordsOf (process : UInt32) (cs : List Callback) : List Callback :=
  cs.filter fun c => c.process = some process

/-- The resolution that a definition sets. -/
def Callback.resolution : Callback → Option UInt64
  | defTimerResolution ticksPerSecond => some ticksPerSecond
  | _ => none

/-- The resolution that some definitions leave. -/
def resolution (cs : List Callback) : UInt64 :=
  (cs.filterMap Callback.resolution).getLast?.getD 0

/-- The function that a definition names. -/
def Callback.function : Callback → Option (UInt32 × Str)
  | defFunction func name => some (func, name)
  | _ => none

/-- The functions that some definitions name. -/
def functions (cs : List Callback) : List (UInt32 × Str) := cs.filterMap Callback.function

/-- The name of a function, which is its alias if it has none. -/
def functionName (cs : List Callback) (func : UInt32) : Str :=
  (HTab.firstOf (functions cs) func).getD (aliasOf 'f' func)

/-- The name of a process. -/
def processName (cs : List Callback) (process : UInt32) : Str :=
  (HTab.firstOf (definitions cs) process).getD []

/-- The calls that are shown. -/
def Process.kept (x : Process) (args : Arguments) : Calls UInt64 UInt32 :=
  if args.noStates then .done else x.calls

/-- What a reader has to know of a process in the end. -/
def Process.life (x : Process) (args : Arguments) (defs : List Callback) (process : UInt32) :
    Life Str Seconds :=
  .gone ⟨sProcess, sRoot, processName defs process, ticksToSeconds (resolution defs) x.begins,
    [], (x.kept args).map (ticksToSeconds (resolution defs)) (functionName defs)⟩
    (ticksToSeconds (resolution defs) x.ends)

/-- How far it is in the end. -/
def Process.stage (x : Process) (args : Arguments) : Stage UInt64 UInt32 :=
  .gone x.begins (x.kept args) x.ends

theorem timeResolution_after (args : Arguments) (st : State) (cs : List Callback) :
    (st.after args cs).timeResolution =
      (cs.filterMap Callback.resolution).getLast?.getD st.timeResolution := by
  induction cs generalizing st with
  | nil => rfl
  | cons c cs ih =>
    have hone : (c.call args st).1.timeResolution = c.resolution.getD st.timeResolution := by
      cases hc : c.isDefinition with
      | false =>
        obtain ⟨time, hst⟩ := @call_event args st c hc
        rw [hst]
        cases c <;> first | rfl | cases hc
      | true => cases c <;> first | rfl | cases hc
    show ((c.call args st).1.after args cs).timeResolution = _
    rw [ih, hone]
    cases hres : c.resolution with
    | none => rw [List.filterMap_cons_none hres]; rfl
    | some r =>
      rw [List.filterMap_cons_some hres, List.getLast?_cons]
      rfl

theorem firstOf_values (cs : List Callback) (func : UInt32) :
    HTab.firstOf (cs.filterMap Callback.value) (aliasOf 'f' func) =
      HTab.firstOf (functions cs) func := by
  unfold functions
  induction cs with
  | nil => rfl
  | cons c cs ih =>
    cases c with
    | defFunction func' name =>
      have hiff : aliasOf 'f' func' = aliasOf 'f' func ↔ func' = func :=
        ⟨fun h => (aliasOf_inj h).2, fun h => h ▸ rfl⟩
      show HTab.firstOf ((aliasOf 'f' func', name) :: cs.filterMap Callback.value) _ =
        HTab.firstOf ((func', name) :: cs.filterMap Callback.function) _
      rw [HTab.firstOf_cons, HTab.firstOf_cons, ih]
      simp only [hiff]
    | defCollectiveOperation collOp name =>
      have hne : aliasOf 'c' collOp ≠ aliasOf 'f' func := fun h =>
        absurd (aliasOf_inj h).1 (by decide)
      show HTab.firstOf ((aliasOf 'c' collOp, name) :: cs.filterMap Callback.value) _ = _
      rw [HTab.firstOf_cons, if_neg hne, ih]
      rfl
    | _ => exact ih

/-- **Functions are shown under their names.** -/
theorem nameOf_function {defs : List Callback} (hstates : args.noStates = false) (func : UInt32) :
    (definedWorld args defs).types.nameOf sState (aliasOf 'f' func) = functionName defs func := by
  have hvalues : (definedWorld args defs).types.values =
      (defs.filterMap Callback.value).map fun v => ((sState, v.1), v.2) := by
    show [] ++ (values args defs).map _ = _
    rw [values, hstates]
    rfl
  show (HTab.firstOf (definedWorld args defs).types.values (sState, aliasOf 'f' func)).getD _ = _
  rw [hvalues, HTab.firstOf_map (fun _ _ h => (Prod.mk.inj h).2), firstOf_values, functionName]

/-- An act is one of the process that the event is about. -/
theorem process_of_act {hash : HTab Str Str} {c : Callback}
    {e : UInt32 × Act UInt64 UInt32 Empty} (h : c.act args hash = some e) :
    c.process = some e.1 := by
  cases c with
  | enter | leave | beginProcess | endProcess =>
    rw [Callback.act, ite_eq_iff] at h
    rcases h with ⟨-, h⟩ | ⟨-, h⟩
    all_goals
      cases h
      try rfl
  | _ => cases h

/-- The acts of a process are those of its records. -/
theorem actsBy_acts (defs evs : List Callback) (process : UInt32) :
    actsBy process (acts args defs evs) =
      ((recordsOf process evs).filterMap
        (Callback.act args (State.init.after args defs).processNameHash)).map Prod.snd := by
  refine actsBy_filterMap fun c _ e he => ?_
  rw [process_of_act he, Option.some.injEq]

/-- **The acts of a process** that begins, calls and ends. -/
theorem acts_records {hash : HTab Str Str} {process : UInt32}
    (hname : (dataGet hash process).isSome = true) (x : Process) :
    ((x.records process).filterMap (Callback.act args hash)).map Prod.snd =
      .born x.begins :: actsOf (x.kept args) ++ [.died x.ends] := by
  have hcalls : ((x.calls.render (fun function time => [.enter time function process])
      fun _ time => [.leave time process]).filterMap (Callback.act args hash)).map Prod.snd =
        actsOf (x.kept args) := by
    rw [Process.kept, Calls.filterMap_render, ← List.filterMap_eq_map, Calls.filterMap_render]
    cases hs : args.noStates with
    | true => simpa [Callback.act, hs, actsOf] using Calls.render_nil x.calls
    | false => simp [Callback.act, hs, actsOf]
  rw [Process.records, List.cons_append, List.filterMap_cons_some (b := (process, .born x.begins))
    (by simp [Callback.act, hname]), List.filterMap_append, List.map_cons, List.map_append, hcalls]
  simp [Callback.act, hname]

/-- As long as there is room, every process is found under its name. -/
theorem dataGet_after {defs : List Callback} (hroom : (processes defs).toFinset.card ≤ 1009)
    (process : UInt32) : dataGet (State.init.after args defs).processNameHash process =
      HTab.firstOf (definitions defs) process := by
  rw [dataGet, init_names, HTab.find_defineAll (by rwa [card_entries]), entries_eq,
    HTab.firstOf_map (fun _ _ h => dataKey_inj h)]

/-- What is read of a process that is over. -/
theorem life_stage {defs : List Callback} (hroom : (processes defs).toFinset.card ≤ 1009)
    (x : Process) (process : UInt32) :
    (cast (State.init.after args defs)).life (definedWorld args defs).types process (x.stage args) =
      x.life args defs process := by
  have htime : (State.init.after args defs).timeResolution = resolution defs :=
    timeResolution_after args State.init defs
  have hcalls : (x.kept args).map (ticksToSeconds (State.init.after args defs).timeResolution)
      (fun f => (definedWorld args defs).types.nameOf sState (aliasOf 'f' f)) =
      (x.kept args).map (ticksToSeconds (resolution defs)) (functionName defs) := by
    rw [htime]
    cases hs : args.noStates with
    | true =>
      rw [Process.kept, hs]
      rfl
    | false => rw [funext (nameOf_function hs)]
  show Life.gone ⟨sProcess, sRoot, (dataGet _ process).getD [], ticksToSeconds _ x.begins, [],
    (x.kept args).map _ _⟩ (ticksToSeconds _ x.ends) = _
  rw [Process.life, processName, ← dataGet_after hroom, ← hcalls, ← htime]
  rfl

end Otf
end Akypuera

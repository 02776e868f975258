import Akypuera.Converter.Lines
import Akypuera.Lib.Actors
import Akypuera.Tau.Clocks
import Akypuera.Tau.WellFormed

/-!
# What tau2paje writes (`tau2paje.c`)

`main` writes the header and creates the root, has the reader make its callbacks, and destroys the
root at the last time, unless a callback ended the process (`output`).

A callback writes one line at most, for an act of a node (`Callback.act`): it depends on the static
data whether there is one, and with which time and name. **A reader of the trace takes from it what
the nodes did** (`run_lines`), and accepts it exactly when that makes sense for each of them.
-/

set_option autoImplicit false

namespace Akypuera
namespace Tau

open CText Search Keys Scene Actors
open Converter (sROOT sZero akyWorld akyTypes akyPajeHierarchy run_hierarchy)

/-- What `main` writes from the header on. -/
def output (args : Arguments) (resolution : ℚ) (cs : List Callback) :
    List (Converter.Definition ⊕ Paje) :=
  let r := run args (State.init resolution) cs
  (if args.dummy then [] else akyPajeHierarchy.map .inl) ++
    (r.written args ++ (r.destroyRoot args).toList).map .inr

/-- An event, as it is read. -/
def Paje.line : Paje → Line Str ℚ
  | createContainer time aliasName type container name => .create time aliasName type container name
  | destroyContainer time type name => .destroy time type name
  | pushState time container type value => .push time container type value
  | popState time container type => .pop time container type
  | startLink time container type source value key _ _ =>
      .startLink time container type source value key
  | endLink time container type dest value key => .endLink time container type dest value key

theorem container_line (p : Paje) : p.line.container = some p.container := by
  cases p <;> rfl

theorem time_line (p : Paje) : p.line.time = some p.time := by
  cases p <;> rfl

/-- What a reader sees of everything that `main` writes. -/
def lines (args : Arguments) (resolution : ℚ) (cs : List Callback) : List (Line Str ℚ) :=
  (output args resolution cs).map (Sum.elim Converter.Definition.line Paje.line)

/-- An end of a link. -/
structure Tip where
  starts : Bool
  time : ℚ
  key : Str
  deriving DecidableEq

/-- What is written for a callback, as an act of a node. -/
def Callback.act (args : Arguments) (st : State) : Callback → Option (UInt32 × Act ℚ Str Tip)
  | defThread nodeid _ _ => some (nodeid, .born 0)
  | endTrace nodeid _ => (st.rankLastTime.read nodeid.toNat).map fun time => (nodeid, .died time)
  | enterState time nodeid _ stateid =>
      if args.noStates then none
      else (st.stateNameHash.find (stateKey stateid)).map fun text =>
        (nodeid, .enter (timeToSeconds st.resolution time) (nameEntered args text).2)
  | leaveState time nodeid _ stateid =>
      if args.noStates then none
      else (st.stateNameHash.find (stateKey stateid)).map fun _ =>
        (nodeid, .leave (timeToSeconds st.resolution time))
  | sendMessage time source _ destination _ _ _ _ =>
      if args.noLinks then none
      else some (source, .note ⟨true, timeToSeconds st.resolution time,
        cstr (st.keys.call (.put (messageTriple source destination))).2.key⟩)
  | recvMessage time source _ destination _ _ _ _ =>
      let key := (st.keys.call (.get (messageTriple source destination))).2
      if args.noLinks = true ∨ key.nonNull = false then none
      else some (destination, .note ⟨false, timeToSeconds st.resolution time, cstr key.key⟩)
  | _ => none

/-- How the acts are written. -/
def cast : Cast UInt32 ℚ Str Tip Str ℚ where
  aliasOf := mpiProcess
  nameOf := mpiProcess
  type := sProcess
  parent _ := sRoot
  state := sState
  value name := name
  time t := t
  note n tip :=
    if tip.starts then .startLink tip.time sRoot sLink (mpiProcess n) sPtp tip.key
    else .endLink tip.time sRoot sLink (mpiProcess n) sPtp tip.key

/-- The callbacks that return, each with the static data it is called in. -/
def visits (args : Arguments) : State → List Callback → List (Callback × State)
  | _, [] => []
  | st, c :: cs =>
      match c.call args st with
      | .error _ => []
      | .ok done => (c, st) :: visits args done.state cs

/-- The acts of all nodes. -/
def acts (args : Arguments) (st : State) (cs : List Callback) : List (UInt32 × Act ℚ Str Tip) :=
  (visits args st cs).filterMap fun x => x.1.act args x.2

variable {args : Arguments} {st : State} {c : Callback} {done : Done} {resolution : ℚ}
  {cs : List Callback}

theorem visits_ok (h : c.call args st = .ok done) (cs : List Callback) :
    visits args st (c :: cs) = (c, st) :: visits args done.state cs := by
  rw [visits, h]

theorem visits_error {stop : Stop} (h : c.call args st = .error stop) (cs : List Callback) :
    visits args st (c :: cs) = [] := by
  rw [visits, h]

/-- They are those of the run. -/
theorem map_visits (st : State) (cs : List Callback) :
    (visits args st cs).map Prod.fst = (run args st cs).callbacks := by
  induction cs generalizing st with
  | nil => rfl
  | cons c cs ih =>
    cases hcall : c.call args st with
    | error stop =>
      rw [visits_error hcall, run_error hcall]
      rfl
    | ok done =>
      rw [visits_ok hcall, run_ok hcall, List.map_cons, ih]
      rfl

/-- What returned did so in one of the ways of `Effect`. -/
theorem effect_of_visits {x : Callback × State} (hx : x ∈ visits args st cs) :
    ∃ done, Effect args x.2 x.1 done := by
  induction cs generalizing st with
  | nil => exact absurd hx List.not_mem_nil
  | cons c cs ih =>
    cases hcall : c.call args st with
    | error stop =>
      rw [visits_error hcall] at hx
      exact absurd hx List.not_mem_nil
    | ok done =>
      rw [visits_ok hcall] at hx
      rcases List.mem_cons.mp hx with rfl | hx
      · exact ⟨done, call_iff_effect.mp hcall⟩
      · exact ih hx

/-- **A callback writes its act.** -/
theorem Effect.line (h : Effect args st c done) (hdummy : args.dummy = false) :
    done.outs.map Paje.line = (c.act args st).toList.map cast.line := by
  have hout : (¬ args.dummy = true ∧ ¬ args.noStates = true) ↔ args.noStates = false := by
    simp [hdummy]
  cases h with
  | clockPeriod | defStateGroup | defUserEvent | defState | eventTrigger => rfl
  | defThread hlt =>
    rw [if_neg (by simp [hdummy])]
    rfl
  | endTraceDummy h => exact absurd (h.symm.trans hdummy) (by simp)
  | endTrace _ hread => simp [Callback.act, hread, Paje.line, cast, Cast.line]
  | unknown hstate hfind =>
    cases c with
    | enterState | leaveState =>
      cases hstate
      simp [Callback.act, hfind]
    | _ => cases hstate
  | enterState hfind hlt | leaveState hfind hlt =>
    cases hs : args.noStates <;> simp [hdummy, hs, Callback.act, hfind, Paje.line, cast, Cast.line]
  | noLinks hop hlinks =>
    cases c with
    | sendMessage | recvMessage => simp [Callback.act, hlinks]
    | _ => cases hop
  | sendMessage hlinks hs hd =>
    simp [hdummy, Callback.act, hlinks, Paje.line, cast, Cast.line]
  | recvMessage hlinks hkey hs hd =>
    simp [hdummy, Callback.act, hlinks, hkey, Paje.line, cast, Cast.line]
  | recvMissed hlinks hkey hignore => simp [Callback.act, hlinks, hkey]

/-- **The trace is that of the acts.** -/
theorem trace_eq (hdummy : args.dummy = false) (st : State) (cs : List Callback) :
    (run args st cs).trace.map Paje.line = (acts args st cs).map cast.line := by
  induction cs generalizing st with
  | nil => rfl
  | cons c cs ih =>
    cases hcall : c.call args st with
    | error stop =>
      rw [acts, visits_error hcall, run_error hcall]
      rfl
    | ok done =>
      have hhere := (call_iff_effect.mp hcall).line hdummy
      have hrest := ih done.state
      rw [RunOf.trace, acts] at hrest ⊢
      rw [visits_ok hcall, run_cons_ok hcall, List.flatMap_cons, List.map_append, hhere, hrest,
        List.filterMap_cons]
      cases c.act args st <;> rfl

/-! ## The whole trace -/

theorem mpiProcess_head (n : UInt32) : (mpiProcess n).head? = some 'r' := by
  have hlen := length_fmtInt32 n.toInt32
  rw [mpiProcess, fit_of_length_lt]
  · rfl
  · rw [List.length_append, akyDefaultStrSize, show "rank".toList.length = 4 by decide]
    omega

theorem mpiProcess_second (n : UInt32) : (mpiProcess n)[1]? = some 'a' := by
  have hlen := length_fmtInt32 n.toInt32
  rw [mpiProcess, fit_of_length_lt]
  · rfl
  · rw [List.length_append, akyDefaultStrSize, show "rank".toList.length = 4 by decide]
    omega

theorem mpiProcess_ne_zero (n : UInt32) : mpiProcess n ≠ sZero := by
  intro h
  have hhead := mpiProcess_head n
  rw [h] at hhead
  exact absurd hhead (by decide)

theorem mpiProcess_ne_root (n : UInt32) : mpiProcess n ≠ sRoot := by
  intro h
  have hsecond := mpiProcess_second n
  rw [h] at hsecond
  exact absurd hsecond (by decide)

/-- **There is room for all nodes** under the root. -/
theorem cast_fits : cast.Fits (akyWorld.withRoot sRoot sROOT sRoot 0) where
  inj _ _ h := mpiProcess_inj h
  top := mpiProcess_ne_zero
  parent n _ := mpiProcess_ne_root n
  under _ := by
    refine ⟨(sProcess, sROOT), ?_, rfl, World.typeOf_root (by decide) sROOT sRoot 0⟩
    show (sProcess, sROOT) ∈ akyTypes.containers
    decide
  state := by
    show (sState, sProcess) ∈ akyTypes.states
    decide
  note n tip := by
    have hroot : (akyWorld.withRoot sRoot sROOT sRoot (0 : ℚ)).typeOf sRoot = some sROOT :=
      World.typeOf_root (by decide) sROOT sRoot 0
    have htype : ∃ l ∈ akyTypes.links, l.1 = sLink ∧ l.2.1 = sROOT := by decide
    have hsource : ∃ l ∈ akyTypes.links, l.1 = sLink ∧ l.2.2.1 = sProcess := by decide
    have hdest : ∃ l ∈ akyTypes.links, l.1 = sLink ∧ l.2.2.2 = sProcess := by decide
    obtain ⟨l, hl, hty, hlroot⟩ := htype
    have hends : ∃ l ∈ akyTypes.links, l.1 = sLink ∧
        (akyWorld.withRoot sRoot sROOT sRoot (0 : ℚ)).typeOf sRoot = some l.2.1 :=
      ⟨l, hl, hty, hroot.trans (congrArg some hlroot.symm)⟩
    obtain ⟨starts, time, key⟩ := tip
    cases starts with
    | true => exact ⟨rfl, hsource, rfl, ⟨n, rfl⟩, hends⟩
    | false => exact ⟨rfl, hdest, rfl, ⟨n, rfl⟩, hends⟩

/-- What a reader knows at the end, when the nodes are at these stages. -/
noncomputable def finalWorld (args : Arguments) (resolution : ℚ) (cs : List Callback)
    (s : UInt32 → Stage ℚ Str) : World Str ℚ :=
  (cast.put akyWorld s).withoutRoot sRoot sROOT sRoot 0
    (run args (State.init resolution) cs).state.lastTime

theorem finalWorld_life (s : UInt32 → Stage ℚ Str) (n : UInt32) :
    (finalWorld args resolution cs s).life (mpiProcess n) = cast.life akyTypes n (s n) :=
  Cast.life_withoutRoot (fun _ _ h => mpiProcess_inj h) (mpiProcess_ne_root n) _ _ _ _ _

/-- Of a node that is gone its calls are known. -/
theorem life_gone (n : UInt32) (calls : Calls ℚ Str) (died : ℚ) :
    cast.life akyTypes n (.gone 0 calls died) =
      .gone ⟨sProcess, sRoot, mpiProcess n, 0, [], calls⟩ died :=
  congrArg (fun c => Scene.Life.gone ⟨sProcess, sRoot, mpiProcess n, 0, [], c⟩ died)
    (Calls.map_id calls)

theorem lines_eq (hdummy : args.dummy = false)
    (hstop : (run args (State.init resolution) cs).stop = none) :
    lines args resolution cs = akyPajeHierarchy.map Converter.Definition.line ++
      (.create 0 sRoot sROOT sZero sRoot ::
        ((acts args (State.init resolution) cs).map cast.line ++
          [.destroy (run args (State.init resolution) cs).state.lastTime sROOT sRoot])) := by
  have htrace := trace_eq hdummy (State.init resolution) cs
  have hdestroy : (run args (State.init resolution) cs).destroyRoot args =
      some (.destroyContainer (run args (State.init resolution) cs).state.lastTime sRootType
        sRoot) := if_neg (by simp [hdummy, hstop])
  rw [lines, output, hdestroy, RunOf.written, if_neg (by simp [hdummy]), if_neg (by simp [hdummy]),
    List.map_append, List.map_map, List.map_map, ← htrace]
  simp only [List.cons_append, List.map_cons, List.map_append]
  rfl

/-- **What is read of the whole trace**, when no callback ends the process. -/
theorem run_lines (hdummy : args.dummy = false)
    (hstop : (run args (State.init resolution) cs).stop = none) :
    (World.start sZero).run (lines args resolution cs) =
      (Actors.run (fun _ => .absent) (acts args (State.init resolution) cs)).map
        (finalWorld args resolution cs) := by
  have hroot := @World.create_root Str ℚ _ akyWorld sRoot sROOT (by decide) (by decide) rfl sRoot 0
  rw [lines_eq hdummy hstop, World.run_append, run_hierarchy, Option.bind_some, World.run_cons,
    show sZero = (akyWorld : World Str ℚ).top from rfl, hroot, Option.bind_some]
  exact Cast.run_rooted (fun _ => rfl) cast_fits (fun _ => rfl) _ _

end Tau
end Akypuera

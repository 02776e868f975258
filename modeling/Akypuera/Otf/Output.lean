import Akypuera.Converter.Lines
import Akypuera.Lib.Actors
import Akypuera.Otf.Registered

/-!
# What otf2paje writes (`otf2paje.c`)

`main` writes the header and creates the root, has the reader make the callbacks of all definitions
and then those of all events, and destroys the root at the time of the last event (`output`). The
records of statistics and snapshots have no callbacks.

A reader of the trace takes the values of the definitions and the containers and states of the
events from it; comments are no lines.
-/

set_option autoImplicit false

namespace Akypuera
namespace Otf

open CText Search Keys Scene
open Converter (sROOT sZero akyWorld akyTypes akyPajeHierarchy)

/-- The callbacks for definitions; the others are for events. -/
def Callback.isDefinition : Callback → Bool
  | defTimerResolution _ | defProcess _ _ | defFunction _ _ | defCollectiveOperation _ _
  | defCreator _ => true
  | enter _ _ _ | leave _ _ | beginProcess _ _ | endProcess _ _ => false

/-- Callbacks one after the other, with all that they write. -/
def run (args : Arguments) (st : State) : List Callback → State × List Paje
  | [] => (st, [])
  | c :: cs =>
      let (st, outs) := c.call args st
      let (st, outs') := run args st cs
      (st, outs ++ outs')

/-- What `main` writes from the header on. -/
def output (args : Arguments) (cs : List Callback) : List (Converter.Definition ⊕ Paje) :=
  let (st, outs) := run args State.init cs
  if args.dummy then outs.map .inr
  else
    akyPajeHierarchy.map .inl ++
      .inr (.createContainer (.finite 0) sRoot sROOT sZero sRoot) :: outs.map .inr ++
      [.inr (.destroyContainer st.lastTime sROOT sRoot)]

/-- An event, as it is read. -/
def Paje.line : Paje → Option (Line Str Seconds)
  | comment _ => none
  | defineEntityValue aliasName type name _ => some (.value aliasName type name)
  | createContainer time aliasName type container name =>
      some (.create time aliasName type container name)
  | destroyContainer time type name => some (.destroy time type name)
  | pushState time container type value => some (.push time container type value)
  | popState time container type => some (.pop time container type)

/-- What a reader sees of everything that `main` writes. -/
def lines (args : Arguments) (cs : List Callback) : List (Line Str Seconds) :=
  (output args cs).filterMap (Sum.elim (some ∘ Converter.Definition.line) Paje.line)

variable {args : Arguments}

theorem run_append (st : State) (cs cs' : List Callback) :
    run args st (cs ++ cs') = ((run args (run args st cs).1 cs').1,
      (run args st cs).2 ++ (run args (run args st cs).1 cs').2) := by
  induction cs generalizing st with
  | nil => rfl
  | cons c cs ih => simp only [List.cons_append, run, ih, List.append_assoc]

theorem run_fst (st : State) (cs : List Callback) : (run args st cs).1 = st.after args cs := by
  induction cs generalizing st with
  | nil => rfl
  | cons c cs ih => exact ih (c.call args st).1

/-! ## Definitions -/

/-- The letter and the number of a value that is defined. -/
def Callback.token : Callback → Option (Char × UInt32)
  | defFunction func _ => some ('f', func)
  | defCollectiveOperation collOp _ => some ('c', collOp)
  | _ => none

/-- The values of some definitions. -/
def tokens (cs : List Callback) : List (Char × UInt32) := cs.filterMap Callback.token

/-- The value of a definition, as it is declared. -/
def Callback.value : Callback → Option (Str × Str)
  | defFunction func name => some (aliasOf 'f' func, name)
  | defCollectiveOperation collOp name => some (aliasOf 'c' collOp, name)
  | _ => none

/-- The values that are declared. -/
def values (args : Arguments) (cs : List Callback) : List (Str × Str) :=
  if args.noStates then [] else cs.filterMap Callback.value

theorem length_aliasOf (letter : Char) (id : UInt32) :
    ([letter] ++ fmtInt id.toInt32.toInt).length < akyDefaultStrSize := by
  have hlen := length_fmtInt32 id.toInt32
  rw [List.length_append, List.length_singleton, akyDefaultStrSize]
  omega

/-- **An alias says what it stands for.** -/
theorem aliasOf_inj {letter letter' : Char} {id id' : UInt32}
    (h : aliasOf letter id = aliasOf letter' id') : letter = letter' ∧ id = id' := by
  have hletter : letter = letter' := by
    rw [aliasOf, aliasOf, fit_of_length_lt (length_aliasOf letter id),
      fit_of_length_lt (length_aliasOf letter' id')] at h
    exact (List.cons.inj h).1
  subst hletter
  exact ⟨rfl, fit_fmtInt32_inj (p := [letter]) (by simp) h⟩

theorem values_fst (cs : List Callback) :
    (cs.filterMap Callback.value).map Prod.fst = (tokens cs).map fun t => aliasOf t.1 t.2 := by
  rw [tokens, List.map_filterMap, List.map_filterMap]
  refine List.filterMap_congr fun c _ => ?_
  cases c <;> rfl

/-- The values are distinct when the functions are, and the collective operations. -/
theorem nodup_values (cs : List Callback) :
    ((cs.filterMap Callback.value).map Prod.fst).Nodup ↔ (tokens cs).Nodup := by
  rw [values_fst]
  refine ⟨List.Nodup.of_map _, fun h => h.map ?_⟩
  rintro ⟨l, i⟩ ⟨l', i'⟩ heq
  obtain ⟨rfl, rfl⟩ := aliasOf_inj heq
  rfl

/-- **Definitions write their values**, and comments. -/
theorem lines_definitions (hdummy : args.dummy = false) (st : State) {cs : List Callback}
    (h : ∀ c ∈ cs, c.isDefinition = true) :
    (run args st cs).2.filterMap Paje.line =
      (values args cs).map fun v => .value v.1 sState v.2 := by
  induction cs generalizing st with
  | nil =>
    unfold values
    split <;> rfl
  | cons c cs ih =>
    have hc := h c List.mem_cons_self
    have ih := @ih (c.call args st).1 fun c' hc' => h c' (List.mem_cons_of_mem _ hc')
    have hone : (c.call args st).2.filterMap Paje.line =
        (values args [c]).map fun v => .value v.1 sState v.2 := by
      unfold values
      cases c with
      | defTimerResolution | defCreator | defFunction | defCollectiveOperation =>
        simp only [Callback.call, hdummy]
        cases args.noStates <;> rfl
      | defProcess => cases args.noStates <;> rfl
      | _ => cases hc
    have hsplit : values args (c :: cs) = values args [c] ++ values args cs := by
      unfold values
      split
      · rfl
      · rw [← List.singleton_append, List.filterMap_append]
    show ((c.call args st).2 ++ (run args (c.call args st).1 cs).2).filterMap Paje.line = _
    rw [List.filterMap_append, hone, ih, hsplit, List.map_append]

end Otf
end Akypuera

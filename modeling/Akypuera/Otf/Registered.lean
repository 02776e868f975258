import Akypuera.Otf.Handlers
import Akypuera.Tau.Registered

/-!
# Definitions that are forgotten

otf2paje keeps the names of processes as tau2paje keeps those of states: in a table of 1009 entries,
without a look at whether there was room. A process whose name found none has no container. **Both
converters remember all that was defined exactly when the tables have room for it**
(`definitionsKept_iff`).
-/

set_option autoImplicit false

namespace Akypuera
namespace Otf

open CText Search Keys

/-- The process that a `DefProcess` defines, and its name. -/
def Callback.definition : Callback → Option (UInt32 × Str)
  | defProcess process name => some (process, name)
  | _ => none

def definitions (cs : List Callback) : List (UInt32 × Str) := cs.filterMap Callback.definition

/-- The processes that some callbacks define. -/
def processes (cs : List Callback) : List UInt32 := (definitions cs).map Prod.fst

/-- **A process is remembered**: its first name is found, its `BeginProcess` creates its container
    and its `EndProcess` destroys it. -/
structure Remembers (args : Arguments) (st : State) (process : UInt32) (name : Str) : Prop where
  found : dataGet st.processNameHash process = some name
  begins : ∀ time, (beginProcess args st time process).2 = if args.dummy then [] else
    [.createContainer (ticksToSeconds st.timeResolution time) (aliasOf 'p' process) sProcess sRoot
      name]
  ends : ∀ time, (endProcess args st time process).2 = if args.dummy then [] else
    [.destroyContainer (ticksToSeconds st.timeResolution time) sProcess (aliasOf 'p' process)]

/-- **No process is forgotten**, whatever comes later. -/
def ProcessesKept (args : Arguments) (cs : List Callback) : Prop :=
  ∀ process ∈ processes cs, ∃ name, HTab.firstOf (definitions cs) process = some name ∧
    ∀ later, Remembers args (State.init.after args (cs ++ later)) process name

theorem dataKey_inj {id id' : UInt32} (h : dataKey id = dataKey id') : id = id' :=
  fit_fmtInt32_inj (p := []) (by decide) h

theorem remembers_of_find {args : Arguments} {st : State} {process : UInt32} {name : Str}
    (hfind : dataGet st.processNameHash process = some name) : Remembers args st process name where
  found := hfind
  begins time := by
    rw [beginProcess, hfind]
    simp only [State.at]
    split <;> rfl
  ends time := by
    rw [endProcess, hfind]
    simp only [State.at]
    split <;> rfl

/-! ## The table -/

/-- What `DefProcess` enters into the table. -/
def Callback.entry (c : Callback) : Option (Str × Str) :=
  c.definition.map fun d => (dataKey d.1, d.2)

theorem names_call (args : Arguments) (st : State) (c : Callback) :
    (c.call args st).1.processNameHash = st.processNameHash.defineAll c.entry.toList := by
  have hat : ∀ quiet ticks event,
      (st.at quiet ticks event).1.processNameHash = st.processNameHash := by
    intro quiet ticks event
    rw [State.at]
    split <;> rfl
  cases c with
  | defProcess process name => rfl
  | beginProcess time process =>
    rw [Callback.call, beginProcess]
    split
    · exact hat _ _ _
    · rfl
  | endProcess time process =>
    rw [Callback.call, endProcess]
    split
    · exact hat _ _ _
    · rfl
  | enter | leave => exact hat _ _ _
  | _ => rfl

theorem names_after (args : Arguments) (cs : List Callback) (st : State) :
    (st.after args cs).processNameHash =
      st.processNameHash.defineAll (cs.filterMap Callback.entry) := by
  induction cs generalizing st with
  | nil => rfl
  | cons c cs ih =>
    show ((c.call args st).1.after args cs).processNameHash = _
    rw [ih, names_call]
    cases hentry : c.entry with
    | none => rw [List.filterMap_cons_none hentry]; rfl
    | some d => rw [List.filterMap_cons_some hentry]; rfl

theorem entries_eq (cs : List Callback) :
    cs.filterMap Callback.entry = (definitions cs).map fun d => (dataKey d.1, d.2) := by
  rw [definitions, List.map_filterMap]
  rfl

theorem init_names (args : Arguments) (cs : List Callback) :
    (State.init.after args cs).processNameHash =
      (HTab.create (some 1009)).defineAll (cs.filterMap Callback.entry) := by
  rw [names_after, State.init, hcreateSize_1000]

theorem card_entries (cs : List Callback) :
    ((cs.filterMap Callback.entry).map Prod.fst).toFinset.card =
      (processes cs).toFinset.card := by
  have hkeys : (cs.filterMap Callback.entry).map Prod.fst = (processes cs).map dataKey := by
    rw [entries_eq, processes, List.map_map, List.map_map]
    rfl
  rw [hkeys]
  exact HTab.card_toFinset_map (fun _ _ h => dataKey_inj h) _

theorem processesKept_iff (args : Arguments) (cs : List Callback) :
    ProcessesKept args cs ↔ (processes cs).toFinset.card ≤ 1009 := by
  rw [← card_entries]
  constructor
  · intro hkept
    apply HTab.card_le_of_found
    intro k hk
    rw [entries_eq, List.map_map] at hk
    obtain ⟨d, hd, rfl⟩ := List.mem_map.mp hk
    obtain ⟨name, -, hremembers⟩ := hkept d.1 (List.mem_map_of_mem hd)
    have hfound := (hremembers []).found
    rw [List.append_nil, dataGet, init_names] at hfound
    exact Option.isSome_of_mem hfound
  · intro hfits process hmem
    obtain ⟨name, hname⟩ := Option.isSome_iff_exists.mp (HTab.firstOf_isSome_iff.mpr hmem)
    refine ⟨name, hname, fun later => remembers_of_find ?_⟩
    rw [dataGet, init_names, List.filterMap_append, HTab.defineAll_append]
    refine HTab.find_defineAll_of_some ?_ _
    rw [HTab.find_defineAll hfits, entries_eq,
      HTab.firstOf_map (fun _ _ h => dataKey_inj h) (definitions cs) process, hname]

/-- **Definitions are kept as far as there is room.** -/
theorem definitionsKept_iff (args : Tau.Arguments) (resolution : ℚ) (cs : List Tau.Callback)
    (args' : Arguments) (cs' : List Callback) :
    (Tau.StatesKept args resolution cs ↔
      (Tau.registered args
        (Tau.run args (Tau.State.init resolution) cs).callbacks).toFinset.card ≤ 1009) ∧
      (ProcessesKept args' cs' ↔ (processes cs').toFinset.card ≤ 1009) :=
  ⟨Tau.statesKept_iff args resolution cs, processesKept_iff args' cs'⟩

/-! ## A large trace -/

/-- The numbers below 1010. -/
def manyIds : List UInt32 := (List.range 1010).map UInt32.ofNat

theorem card_manyIds : manyIds.toFinset.card = 1010 := by
  have hnodup : manyIds.Nodup := by
    apply List.nodup_range.map_on
    intro i hi j hj heq
    have hlt : ∀ k ∈ List.range 1010, k < 2 ^ 32 := fun k hk =>
      Nat.lt_trans (List.mem_range.mp hk) (by decide)
    have hnat := congrArg UInt32.toNat heq
    rwa [UInt32.toNat_ofNat_of_lt' (hlt i hi), UInt32.toNat_ofNat_of_lt' (hlt j hj)] at hnat
  rw [List.toFinset_card_of_nodup hnodup, manyIds, List.length_map, List.length_range]

/-- **Of 1010 states, or 1010 processes, one is forgotten.** -/
theorem definitions_not_kept :
    ¬ Tau.StatesKept Tau.plainly 1 (manyIds.map fun s => .defState s "f".toList 0) ∧
      ¬ ProcessesKept plainly (manyIds.map fun s => .defProcess s "p".toList) := by
  constructor
  · rw [Tau.statesKept_iff, Tau.callbacks_defStates]
    have hids : Tau.registered Tau.plainly (manyIds.map fun s => .defState s "f".toList 0) =
        manyIds := by
      rw [Tau.registered, List.filterMap_map]
      exact List.filterMap_some
    rw [hids, card_manyIds]
    decide
  · rw [processesKept_iff]
    have hids : processes (manyIds.map fun s => .defProcess s "p".toList) = manyIds := by
      rw [processes, definitions, List.filterMap_map, List.map_filterMap]
      exact List.filterMap_some
    rw [hids, card_manyIds]
    decide

end Otf
end Akypuera

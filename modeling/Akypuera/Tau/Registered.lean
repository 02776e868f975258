import Akypuera.Tau.StateNames

/-!
# States that are registered

`DefState` enters the name of a state into a table of 1009 entries, and does not look at whether
there was room for it. A state that found none is as one that was never defined: what is entered and
left in it is dropped. So **the states that are registered are all remembered exactly when there are
1009 of them at most** (`statesKept_iff`).
-/

set_option autoImplicit false

namespace Akypuera
namespace Tau

open CText Search Keys

/-- The state that a `DefState` registers: with `only_mpi`, one with an MPI name. -/
def Callback.registers (args : Arguments) : Callback → Option UInt32
  | defState stateid statename _ =>
      if args.onlyMpi ∧ ¬ strstr statename "MPI_".toList then none else some stateid
  | _ => none

/-- The states that some callbacks register. -/
def registered (args : Arguments) (cs : List Callback) : List UInt32 :=
  cs.filterMap (Callback.registers args)

/-- **A state is remembered**: it is found, and each `EnterState` pushes it and each `LeaveState`
    pops it, where states are written. -/
structure Remembers (args : Arguments) (st : State) (s : UInt32) : Prop where
  found : (st.stateNameHash.find (stateKey s)).isSome = true
  enters : ∀ (time : ℚ) (nodeid : UInt32), nodeid.toNat < st.rankLastTime.length →
    ∃ done name, enterState args st time nodeid s = .ok done ∧ done.result = 0 ∧
      done.outs = if ¬ args.dummy ∧ ¬ args.noStates then
        [.pushState (timeToSeconds st.resolution time) (mpiProcess nodeid) sState name] else []
  leaves : ∀ (time : ℚ) (nodeid : UInt32), nodeid.toNat < st.rankLastTime.length →
    ∃ done, leaveState args st time nodeid s = .ok done ∧ done.result = 0 ∧
      done.outs = if ¬ args.dummy ∧ ¬ args.noStates then
        [.popState (timeToSeconds st.resolution time) (mpiProcess nodeid) sState] else []

/-- **No state is forgotten**: whatever comes later, those registered by the callbacks that were
    made are remembered. -/
def StatesKept (args : Arguments) (resolution : ℚ) (cs : List Callback) : Prop :=
  ∀ s ∈ registered args (run args (State.init resolution) cs).callbacks,
    ∀ later, Remembers args (run args (State.init resolution) (cs ++ later)).state s

variable {args : Arguments} {st : State} {s : UInt32}

/-- What is found is remembered. -/
theorem remembers_of_find (hfind : (st.stateNameHash.find (stateKey s)).isSome = true) :
    Remembers args st s := by
  obtain ⟨text, htext⟩ := Option.isSome_iff_exists.mp hfind
  refine ⟨hfind, ?_, ?_⟩
  · intro time nodeid hlt
    exact ⟨_, _, (enterState_eq htext time nodeid).trans (if_pos hlt), rfl, rfl⟩
  · intro time nodeid hlt
    exact ⟨_, (leaveState_eq htext time nodeid).trans (if_pos hlt), rfl, rfl⟩

/-! ## The table -/

theorem entry_key (args : Arguments) (c : Callback) :
    (c.entry args).map Prod.fst = (c.registers args).map stateKey := by
  cases c with
  | defState stateid statename group =>
    rw [Callback.entry, Callback.registers]
    split <;> rfl
  | _ => rfl

theorem map_entries (args : Arguments) (cs : List Callback) :
    (cs.filterMap (Callback.entry args)).map Prod.fst = (registered args cs).map stateKey := by
  rw [List.map_filterMap, registered, List.map_filterMap]
  exact List.filterMap_congr fun c _ => entry_key args c

theorem card_entries (args : Arguments) (cs : List Callback) :
    ((cs.filterMap (Callback.entry args)).map Prod.fst).toFinset.card =
      (registered args cs).toFinset.card := by
  rw [map_entries]
  exact HTab.card_toFinset_map (fun _ _ h => stateKey_inj h) _

/-! ## Runs -/

/-- The table of a run holds what the callbacks defined. -/
theorem run_names (args : Arguments) (cs : List Callback) {st : State} {hash : HTab Str Str}
    (hsame : HTab.SameKeys st.stateNameHash hash) :
    HTab.SameKeys (run args st cs).state.stateNameHash
      ((run args st cs).callbacks.foldl (Callback.names args) hash) := by
  induction cs generalizing st hash with
  | nil => exact hsame
  | cons c cs ih =>
    cases hcall : c.call args st with
    | error stop =>
      rw [run_error hcall]
      exact hsame
    | ok done =>
      rw [run_ok hcall]
      exact ih ((call_iff_effect.mp hcall).names hsame)

theorem run_find (args : Arguments) (resolution : ℚ) (cs : List Callback) (s : UInt32) :
    ((run args (State.init resolution) cs).state.stateNameHash.find (stateKey s)).isSome =
      ((namesAfter args (run args (State.init resolution) cs).callbacks).find
        (stateKey s)).isSome := by
  have hsame : HTab.SameKeys (State.init resolution).stateNameHash (HTab.create (some 1009)) := by
    rw [State.init, StateOf.init, hcreateSize_1000]
    exact HTab.SameKeys.refl _
  exact (run_names args cs hsame).entry _

theorem statesKept_iff (args : Arguments) (resolution : ℚ) (cs : List Callback) :
    StatesKept args resolution cs ↔
      (registered args (run args (State.init resolution) cs).callbacks).toFinset.card ≤ 1009 := by
  rw [← card_entries]
  constructor
  · intro hkept
    apply HTab.card_le_of_found
    intro k hk
    rw [map_entries] at hk
    obtain ⟨s, hs, rfl⟩ := List.mem_map.mp hk
    have hfound := (hkept s hs []).found
    rwa [List.append_nil, run_find, namesAfter, names_eq] at hfound
  · intro hfits s hs later
    refine remembers_of_find ?_
    have hmem := List.mem_map_of_mem (f := stateKey) hs
    rw [← map_entries] at hmem
    have hfound := HTab.firstOf_isSome_iff.mpr hmem
    rw [← HTab.find_defineAll hfits, ← names_eq] at hfound
    obtain ⟨text, htext⟩ := Option.isSome_iff_exists.mp hfound
    obtain ⟨more, hmore⟩ := callbacks_append args (State.init resolution) cs later
    rw [run_find, namesAfter, ← hmore, List.foldl_append, find_names more htext]
    rfl

/-- A run of definitions alone makes all of them. -/
theorem callbacks_defStates (args : Arguments) (st : State) (ids : List UInt32) (name : Str) :
    (run args st (ids.map fun s => .defState s name 0)).callbacks =
      ids.map fun s => .defState s name 0 := by
  induction ids generalizing st with
  | nil => rfl
  | cons s ids ih => exact congrArg (Callback.defState s name 0 :: ·) (ih _)

end Tau
end Akypuera

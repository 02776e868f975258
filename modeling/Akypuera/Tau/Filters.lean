import Akypuera.Tau.Registered
import Akypuera.Tau.WellFormed

/-!
# States that are left out

`EnterState` and `LeaveState` decide by themselves whether a state is written, each by a look into
the table of names. Where all states are defined before the first is entered, and the table has room
for them, both find the same: normalisation changes the names in the table, but not which are there.
So **a state is written at both ends or at neither**, and leaving out pairs does not change what
the others close (`statesPaired`).
-/

set_option autoImplicit false

namespace Akypuera
namespace Tau

open CText Search Keys Nesting

def Callback.isDefState : Callback → Bool
  | defState .. => true
  | _ => false

/-- No state is defined after one was entered or left. -/
def DefinedFirst (cs : List Callback) : Prop :=
  cs.Pairwise fun c c' => c.stateid.isSome = true → c'.isDefState = false

instance (cs : List Callback) : Decidable (DefinedFirst cs) := by
  unfold DefinedFirst
  infer_instance

/-- **Properly nested**: one thread on each node, all states defined first, with room for them in
    the table, and each `LeaveState` of the state that was entered last. -/
structure Nested (args : Arguments) (cs : List Callback) : Prop where
  alone : Alone cs
  first : DefinedFirst cs
  room : (registered args cs).toFinset.card ≤ 1009
  nested : ∀ t ∈ threads cs,
    leftOpen [] (marks t cs) = [] ∧ ∀ x ∈ closings [] (marks t cs), SameState cs x

instance (args : Arguments) (cs : List Callback) : Decidable (Nested args cs) :=
  @decidable_of_iff _ (Alone cs ∧ DefinedFirst cs ∧ (registered args cs).toFinset.card ≤ 1009 ∧
      ∀ t ∈ threads cs,
        leftOpen [] (marks t cs) = [] ∧ ∀ x ∈ closings [] (marks t cs), SameState cs x)
    ⟨fun ⟨h₁, h₂, h₃, h₄⟩ => ⟨h₁, h₂, h₃, h₄⟩, fun ⟨h₁, h₂, h₃, h₄⟩ => ⟨h₁, h₂, h₃, h₄⟩⟩
    (@instDecidableAnd _ _ inferInstance (@instDecidableAnd _ _ inferInstance
      (@instDecidableAnd _ _ inferInstance (List.decidableBAll _ _))))

/-- The state of the callback at place `i` is one to write: it was registered, and states are
    written. -/
def kept (args : Arguments) (cs : List Callback) (i : Nat) : Bool :=
  args.states && (cs[i]?.bind Callback.stateid).any fun s => decide (s ∈ registered args cs)

/-- **The pushes and pops of a node's container**: those of the states that are kept, and each pop
    closes the push of its own `EnterState`. -/
structure StatesPaired (args : Arguments) (resolution : ℚ) (cs : List Callback) (t : Thread) :
    Prop where
  written : containerMarks t.1 (run args (State.init resolution) cs) =
    (marks t (run args (State.init resolution) cs).callbacks).filter fun x => kept args cs x.1
  matched : ∀ x ∈ closings [] (containerMarks t.1 (run args (State.init resolution) cs)),
    x.2.isSome = true ∧ x ∈ closings [] (marks t cs)
  /-- Nothing is left open when the process was not ended. -/
  balanced : (run args (State.init resolution) cs).stop = none →
    leftOpen [] (containerMarks t.1 (run args (State.init resolution) cs)) = []

/-! ## One callback -/

variable {args : Arguments} {st : State} {c : Callback} {done : Done} {cs : List Callback}

/-- **What is written is in the node's container.** -/
theorem Effect.container (h : Effect args st c done) :
    ∀ p ∈ done.outs, ∃ t ∈ c.thread, p.container = mpiProcess t.1 := by
  intro p hp
  cases h.writes p hp with
  | _ => exact ⟨_, rfl, rfl⟩

/-- **A state is written when it is found.** -/
theorem Effect.mark (h : Effect args st c done) :
    done.outs.filterMap Paje.mark =
      if args.states && c.stateid.any fun s => (st.stateNameHash.find (stateKey s)).isSome
      then c.mark.toList else [] := by
  have hnone : ∀ b : Bool, (if b = true then (none : Option Mark).toList else []) = [] := by
    intro b
    cases b <;> rfl
  cases h with
  | clockPeriod | endTraceDummy | endTrace | defStateGroup | defUserEvent | defState
  | eventTrigger | recvMissed => exact (hnone _).symm
  | defThread | sendMessage | recvMessage =>
    refine Eq.trans ?_ (hnone _).symm
    split <;> rfl
  | unknown hstate hfind =>
    rw [hstate, Option.any_some, hfind, Option.isSome_none, Bool.and_false]
    rfl
  | noLinks hop =>
    cases c with
    | sendMessage | recvMessage => exact (hnone _).symm
    | _ => cases hop
  | enterState hfind | leaveState hfind =>
    rw [Callback.stateid, Option.any_some, hfind, Option.isSome_some, Bool.and_true]
    cases hdummy : args.dummy <;> cases hstates : args.noStates <;>
      simp [Arguments.states, hdummy, hstates, Paje.mark, Callback.mark]

/-! ## Runs -/

/-- Where a round comes from, and what is in the table then. -/
theorem exists_effect {cs : List Callback} {st : State} {hash : HTab Str Str}
    (hsame : HTab.SameKeys st.stateNameHash hash) {before after : List (Callback × List Paje)}
    {x : Callback × List Paje} (hx : (run args st cs).rounds = before ++ x :: after) :
    ∃ st' done, Effect args st' x.1 done ∧ x.2 = done.outs ∧
      HTab.SameKeys st'.stateNameHash
        ((before.map Prod.fst).foldl (Callback.names args) hash) := by
  induction cs generalizing st hash before with
  | nil => exact absurd hx.symm (by simp [run])
  | cons c cs ih =>
    cases hcall : c.call args st with
    | error stop =>
      rw [run_cons_error hcall] at hx
      exact absurd hx.symm (by simp)
    | ok done =>
      have heff := call_iff_effect.mp hcall
      rw [run_cons_ok hcall] at hx
      cases before with
      | nil =>
        obtain ⟨rfl, -⟩ := List.cons.inj hx
        exact ⟨st, done, heff, rfl, hsame⟩
      | cons y before =>
        obtain ⟨rfl, hrest⟩ := List.cons.inj hx
        exact ih (heff.names hsame) hrest

/-- From the first state that is entered or left on, the table holds what is registered. -/
theorem DefinedFirst.registered_eq (args : Arguments) {before after : List Callback}
    (h : DefinedFirst (before ++ c :: after)) (hstate : c.stateid.isSome = true) :
    registered args (before ++ c :: after) = registered args before := by
  have hnone : ∀ c' ∈ c :: after, c'.registers args = none := by
    intro c' hc'
    have hplain : c'.isDefState = false := by
      rcases List.mem_cons.mp hc' with rfl | hc'
      · cases c' with
        | defState => cases hstate
        | _ => rfl
      · exact (List.pairwise_cons.mp (List.pairwise_append.mp h).2.1).1 c' hc' hstate
    cases c' with
    | defState => cases hplain
    | _ => rfl
  rw [registered, List.filterMap_append, List.filterMap_eq_nil_iff.mpr hnone, List.append_nil]
  rfl

/-- **What is found is what is registered**, as long as there is room. -/
theorem find_namesAfter {cs : List Callback} (hroom : (registered args cs).toFinset.card ≤ 1009)
    (s : UInt32) :
    ((namesAfter args cs).find (stateKey s)).isSome = decide (s ∈ registered args cs) := by
  rw [← card_entries] at hroom
  rw [namesAfter, names_eq, HTab.find_defineAll hroom, Bool.eq_iff_iff, HTab.firstOf_isSome_iff,
    map_entries, decide_eq_true_iff, List.mem_map_of_injective fun _ _ h => stateKey_inj h]

/-- A callback that is made and kept is so in the whole sequence. -/
theorem kept_eq (args : Arguments) {cs before after : List Callback} (hsplit : cs = before ++ c :: after) :
    kept args cs before.length =
      (args.states && c.stateid.any fun s => decide (s ∈ registered args cs)) := by
  rw [kept, hsplit, List.getElem?_append_right (le_refl _), Nat.sub_self, List.getElem?_cons_zero,
    Option.bind_some]

/-- **The states of a node are the ones that are kept.** -/
theorem Nested.written (h : Nested args cs) (resolution : ℚ) {t : Thread} (ht : t ∈ threads cs) :
    containerMarks t.1 (run args (State.init resolution) cs) =
      (marks t (run args (State.init resolution) cs).callbacks).filter fun x =>
        kept args cs x.1 := by
  have hsame : HTab.SameKeys (State.init resolution).stateNameHash (HTab.create (some 1009)) := by
    rw [State.init, StateOf.init, hcreateSize_1000]
    exact HTab.SameKeys.refl _
  obtain ⟨rest, hmade⟩ := callbacks_made args (State.init resolution) cs
  rw [containerMarks, marks, containerMarksFrom_placed, marksFrom_placed]
  apply placed_eq_filter (kept args cs)
  intro before x after hrounds
  obtain ⟨st, done, heff, houts, hnames⟩ := exists_effect hsame hrounds
  have hsplit : cs = before.map Prod.fst ++ x.1 :: (after.map Prod.fst ++ rest) := by
    rw [← hmade, RunOf.callbacks, hrounds]
    simp
  have hsole : ∀ t' ∈ x.1.thread, t'.1 = t.1 → t' = t := fun t' ht' hnode =>
    h.alone t' (mem_threads (hsplit ▸ by simp) ht') t ht hnode
  have hkept := kept_eq args hsplit
  rw [List.length_map] at hkept
  rw [houts, about_eq heff.container hsole, Nat.zero_add, hkept, Callback.marksOf]
  by_cases hthread : x.1.thread = some t
  · rw [if_pos hthread, if_pos hthread, heff.mark]
    cases hstate : x.1.stateid with
    | none => rfl
    | some s =>
      have hregistered := h.first
      rw [hsplit] at hregistered
      have hall := hregistered.registered_eq args (Option.isSome_of_mem hstate)
      rw [← hsplit] at hall
      have hroom := h.room
      rw [hall] at hroom
      rw [Option.any_some, Option.any_some, hnames.entry, ← namesAfter, find_namesAfter hroom, hall]
  · rw [if_neg hthread, if_neg hthread]
    split <;> rfl

/-- A closing and what it closes are both kept or neither. -/
theorem SameState.kept {cs : List Callback} {x : Nat × Option Nat} (h : SameState cs x) :
    ∃ i, x.2 = some i ∧ kept args cs i = kept args cs x.1 := by
  obtain ⟨j, i⟩ := x
  cases i with
  | none => cases h
  | some i => exact ⟨i, rfl, by rw [Tau.kept, Tau.kept, show _ = _ from h]⟩

/-- **Filters keep the pushes and pops of tau2paje paired.** -/
theorem statesPaired (h : Nested args cs) (resolution : ℚ) {t : Thread} (ht : t ∈ threads cs) :
    StatesPaired args resolution cs t := by
  obtain ⟨hopen, hnested⟩ := h.nested t ht
  obtain ⟨rest, hmade⟩ := callbacks_made args (State.init resolution) cs
  -- what was made is a first part of the thread's states, and closes the same
  have hclosings : ∀ x ∈ closings [] (marks t (run args (State.init resolution) cs).callbacks),
      x ∈ closings [] (marks t cs) := by
    intro x hx
    rw [← hmade, marks, marksFrom_placed, placed_append, closings_append]
    rw [marks, marksFrom_placed] at hx
    exact List.mem_append_left _ hx
  have hkept : ∀ x ∈ closings [] (marks t (run args (State.init resolution) cs).callbacks),
      ∃ i, x.2 = some i ∧ kept args cs i = kept args cs x.1 := fun x hx =>
    (hnested x (hclosings x hx)).kept
  have hwritten := h.written resolution ht
  obtain ⟨hpaired, hleft⟩ := paired_filter (kept args cs) hkept
  rw [← hwritten] at hpaired hleft
  refine ⟨hwritten, ?_, ?_⟩
  · intro x hx
    obtain ⟨hsome, hmem⟩ := hpaired x hx
    exact ⟨hsome, hclosings x hmem⟩
  · intro hstop
    rw [hleft, callbacks_of_stop hstop, hopen, List.filter_nil]

end Tau
end Akypuera

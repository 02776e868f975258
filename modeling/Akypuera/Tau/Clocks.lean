import Akypuera.Tau.Times
import Akypuera.Tau.Effects

/-!
# The clock of the trace

The callbacks keep a time for each node and one for the trace, and `main` destroys the root
container at the latter. A callback that sets the time of a node, its own or the other end of a
message, sets that of the trace as well; what is dropped sets neither; and a new node starts at 0.
So **no node is ahead of the trace** (`Clocks`), and nothing is written after the root is gone
(`root_outlives`).
-/

set_option autoImplicit false

namespace Akypuera
namespace Tau

open CText Search Keys

/-! ## `main` -/

def sRootType : Str := "ROOT".toList

/-- What `main` and the callbacks write before the root is destroyed, below the header. -/
def RunOf.written (args : Arguments) (r : Run) : List Paje :=
  if args.dummy then [] else .createContainer 0 sRoot sRootType "0".toList sRoot :: r.trace

/-- The end of `main`: the root is destroyed at the last time. -/
def RunOf.destroyRoot (args : Arguments) (r : Run) : Option Paje :=
  if args.dummy = true ∨ r.stop.isSome = true then none
  else some (.destroyContainer r.state.lastTime sRootType sRoot)

/-! ## One callback -/

/-- **No node is ahead of the trace**, and neither is anything that is written. -/
structure Clocks (outs : List Paje) (now : ℚ) (st : State) : Prop where
  entries : ∀ i v, st.rankLastTime.read i = some v → v ≤ st.lastTime
  events : ∀ p ∈ outs, p.time ≤ st.lastTime
  nonneg : 0 ≤ st.lastTime
  past : st.lastTime ≤ now

variable {args : Arguments} {st : State} {c : Callback} {done : Done} {outs : List Paje} {now : ℚ}

theorem Clocks.init (resolution : ℚ) : Clocks [] 0 (State.init resolution) where
  entries _ _ h := absurd h nofun
  events := nofun
  nonneg := le_refl 0
  past := le_refl 0

/-- The clock of the trace moves on. -/
theorem Clocks.move (h : Clocks outs now st) {seconds : ℚ} (hnow : now ≤ seconds) {st' : State}
    {outs' : List Paje} (hlast : st'.lastTime = seconds)
    (hentries : ∀ i v, st'.rankLastTime.read i = some v →
      v = seconds ∨ st.rankLastTime.read i = some v)
    (hevents : ∀ p ∈ outs', p.time = seconds) : Clocks (outs ++ outs') seconds st' where
  entries i v hv := by
    rw [hlast]
    rcases hentries i v hv with rfl | hold
    · exact le_refl v
    · exact (h.entries i v hold).trans (h.past.trans hnow)
  events p hp := by
    rw [hlast]
    rcases List.mem_append.mp hp with hp | hp
    · exact (h.events p hp).trans (h.past.trans hnow)
    · exact le_of_eq (hevents p hp)
  nonneg := by
    rw [hlast]
    exact h.nonneg.trans (h.past.trans hnow)
  past := le_of_eq hlast

/-- It stands still: what is written is 0 or an entry. -/
theorem Clocks.stay (h : Clocks outs now st) {now' : ℚ} (hnow : now ≤ now') {st' : State}
    {outs' : List Paje} (hlast : st'.lastTime = st.lastTime)
    (hentries : ∀ i v, st'.rankLastTime.read i = some v →
      v = 0 ∨ st.rankLastTime.read i = some v)
    (hevents : ∀ p ∈ outs', p.time = 0 ∨ ∃ i, st.rankLastTime.read i = some p.time) :
    Clocks (outs ++ outs') now' st' where
  entries i v hv := by
    rw [hlast]
    rcases hentries i v hv with rfl | hold
    · exact h.nonneg
    · exact h.entries i v hold
  events p hp := by
    rw [hlast]
    rcases List.mem_append.mp hp with hp | hp
    · exact h.events p hp
    · rcases hevents p hp with hzero | ⟨i, hi⟩
      · exact hzero ▸ h.nonneg
      · exact h.entries i _ hi
  nonneg := hlast ▸ h.nonneg
  past := hlast ▸ h.past.trans hnow

theorem of_read_grown {nodeid : UInt32} {i : Nat} {v : ℚ}
    (h : (st.grown nodeid).2.read i = some v) : st.rankLastTime.read i = some v := by
  rw [StateOf.grown] at h
  split at h
  · exact Cells.read_of_read_resize h
  · exact h

theorem le_nowAfter {r : Resolution} (h : ∀ time ∈ c.time, now ≤ timeToSeconds r time) :
    now ≤ nowAfter r now c := by
  unfold nowAfter
  cases htime : c.time with
  | none => exact le_refl now
  | some time => exact h time htime

/-- **Every callback keeps the clocks.** -/
theorem Effect.clocks (h : Effect args st c done) (hclocks : Clocks outs now st)
    (hnow : ∀ time ∈ c.time, now ≤ timeToSeconds st.resolution time) :
    Clocks (outs ++ done.outs) (nowAfter st.resolution now c) done.state := by
  have hle := le_nowAfter hnow
  have hold : ∀ i v, st.rankLastTime.read i = some v → v = 0 ∨ st.rankLastTime.read i = some v :=
    fun _ _ hv => .inr hv
  cases h with
  | clockPeriod | defStateGroup | defUserEvent | defState | unknown | noLinks | endTraceDummy
  | recvMissed =>
    exact hclocks.stay hle rfl hold nofun
  | defThread hlt =>
    refine hclocks.stay hle rfl (fun i v hv => ?_) fun p hp => ?_
    · exact (Cells.of_read_set hv).imp_right of_read_grown
    · split at hp
      · cases hp
      · rw [List.mem_singleton.mp hp]
        exact .inl rfl
  | endTrace hdummy hread =>
    refine hclocks.stay hle rfl hold fun p hp => ?_
    rw [List.mem_singleton.mp hp]
    exact .inr ⟨_, hread⟩
  | eventTrigger hlt =>
    exact hclocks.move (hnow _ rfl) rfl (fun i v hv => Cells.of_read_set hv) nofun
  | enterState hfind hlt | leaveState hfind hlt =>
    apply hclocks.move (hnow _ rfl) rfl (fun i v hv => Cells.of_read_set hv)
    intro p hp
    split at hp
    · rw [List.mem_singleton.mp hp]
      rfl
    · cases hp
  | sendMessage hlinks hs hd | recvMessage hlinks hkey hs hd =>
    -- both ends of the message are set to its time
    refine hclocks.move (hnow _ rfl) rfl (fun i v hv => ?_) fun p hp => ?_
    · exact (Cells.of_read_set hv).elim .inl Cells.of_read_set
    · split at hp
      · cases hp
      · rw [List.mem_singleton.mp hp]
        rfl

/-! ## Runs -/

theorem Effect.resolution (h : Effect args st c done) :
    done.state.resolution = c.resolution st.resolution := by
  cases h with
  | unknown hstate =>
    cases c with
    | enterState | leaveState => rfl
    | _ => cases hstate
  | noLinks hop =>
    cases c with
    | sendMessage | recvMessage => rfl
    | _ => cases hop
  | _ => rfl

/-- **And so does a run.** -/
theorem Clocks.run (h : Clocks outs now st) {cs : List Callback}
    (hordered : (now :: secondsFrom st.resolution cs).Pairwise (· ≤ ·)) :
    ∃ now', Clocks (outs ++ (run args st cs).trace) now' (run args st cs).state := by
  induction cs generalizing outs now st with
  | nil => exact ⟨now, by simpa [Tau.run, RunOf.trace] using h⟩
  | cons c cs ih =>
    obtain ⟨hnow, hrest⟩ := ordered_cons hordered
    cases hcall : c.call args st with
    | error stop => exact ⟨now, by simpa [Tau.run, hcall, RunOf.trace] using h⟩
    | ok done =>
      have heff := call_iff_effect.mp hcall
      rw [← heff.resolution] at hrest
      obtain ⟨now', hclocks⟩ := ih (heff.clocks h hnow) hrest
      rw [List.append_assoc] at hclocks
      exact ⟨now', by simpa [Tau.run, hcall, RunOf.trace] using hclocks⟩

theorem secondsFrom_append (r : Resolution) (cs cs' : List Callback) :
    secondsFrom r (cs ++ cs') =
      secondsFrom r cs ++ secondsFrom (cs.foldl Callback.resolution r) cs' := by
  induction cs generalizing r with
  | nil => rfl
  | cons c cs ih => rw [List.cons_append, secondsFrom, ih, secondsFrom, List.append_assoc]; rfl

/-- **The root outlives everything.** Where times are in order and not negative, no node is ahead of
    the trace after any callback, and the root is destroyed no earlier than anything is written. -/
theorem root_outlives (args : Arguments) (resolution : ℚ) (cs : List Callback)
    (hordered : (0 :: secondsFrom (.finite resolution) cs).Pairwise (· ≤ ·)) :
    (∀ before, before <+: cs → ∀ i v,
      (run args (State.init resolution) before).state.rankLastTime.read i = some v →
        v ≤ (run args (State.init resolution) before).state.lastTime) ∧
      ∀ root ∈ (run args (State.init resolution) cs).destroyRoot args,
        ∀ p ∈ (run args (State.init resolution) cs).written args, p.time ≤ root.time := by
  refine ⟨?_, ?_⟩
  · intro before hbefore
    obtain ⟨after, rfl⟩ := hbefore
    rw [secondsFrom_append, ← List.cons_append] at hordered
    obtain ⟨_, hclocks⟩ := @Clocks.run args _ _ _ (Clocks.init resolution) before
      (List.pairwise_append.mp hordered).1
    exact hclocks.entries
  · intro root hroot p hp
    obtain ⟨_, hclocks⟩ := @Clocks.run args _ _ _ (Clocks.init resolution) cs hordered
    rw [RunOf.destroyRoot] at hroot
    split at hroot
    · cases hroot
    · cases hroot
      rw [RunOf.written] at hp
      split at hp
      · cases hp
      · rcases List.mem_cons.mp hp with rfl | hp
        · exact hclocks.nonneg
        · exact hclocks.events p hp

/-- With a fixed resolution, each time is converted in the same way. -/
theorem secondsFrom_fixed {r : Resolution} {cs : List Callback}
    (hfixed : ∀ c ∈ cs, c.resolution r = r) :
    secondsFrom r cs = (cs.filterMap Callback.time).map (timeToSeconds r) := by
  induction cs with
  | nil => rfl
  | cons c cs ih =>
    rw [secondsFrom, hfixed c List.mem_cons_self, ih fun c' hc' => hfixed c' (.tail _ hc')]
    cases htime : c.time with
    | none => rw [List.filterMap_cons_none htime]; rfl
    | some time => rw [List.filterMap_cons_some htime]; rfl

theorem timeToSeconds_mono {resolution time time' : ℚ} (hpos : 0 ≤ resolution) (h : time ≤ time') :
    timeToSeconds (.finite resolution) time ≤ timeToSeconds (.finite resolution) time' := by
  refine div_le_div_of_nonneg_right h ?_
  split
  · norm_num
  · exact hpos

/-- **Times that are in order are so in seconds**, where the resolution is fixed. -/
theorem ordered_of_fixed {resolution : ℚ} {cs : List Callback} (hpos : 0 ≤ resolution)
    (hfixed : ∀ c ∈ cs, c.resolution (.finite resolution) = .finite resolution)
    (hordered : (0 :: cs.filterMap Callback.time).Pairwise (· ≤ ·)) :
    (0 :: secondsFrom (.finite resolution) cs).Pairwise (· ≤ ·) := by
  have hzero : timeToSeconds (.finite resolution) 0 = 0 := zero_div _
  have hmono := hordered.map (timeToSeconds (.finite resolution)) fun _ _ => timeToSeconds_mono hpos
  rwa [List.map_cons, hzero, ← secondsFrom_fixed hfixed] at hmono

/-- Two nodes, a state, and a message from one to the other. -/
def oneMessage : List Callback :=
  [.clockPeriod (1 / 1000), .defThread 0 0 "a".toList, .defThread 1 0 "b".toList,
    .defState 7 "MPI_Send()".toList 1, .enterState 1 0 0 7, .sendMessage 3 0 0 1 0 8 42 0,
    .leaveState 3 0 0 7, .recvMessage 4 0 0 1 0 8 42 0, .endTrace 1 0, .endTrace 0 0]

theorem root_outlives_oneMessage :
    (run plainly (State.init 1000) oneMessage).stop = none ∧
      ∀ root ∈ (run plainly (State.init 1000) oneMessage).destroyRoot plainly,
        ∀ p ∈ (run plainly (State.init 1000) oneMessage).written plainly, p.time ≤ root.time := by
  refine ⟨?_, (root_outlives plainly 1000 oneMessage
    (ordered_of_fixed (by decide +kernel) (by decide +kernel) (by decide +kernel))).2⟩
  rw [State.init, StateOf.init, hcreateSize_1000, hcreateSize_akyKeyTableSize]
  decide +kernel

end Tau
end Akypuera

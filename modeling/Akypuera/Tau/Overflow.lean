import Akypuera.Keys.Overflow
import Akypuera.Tau.Effects

/-!
# tau2paje on the store of the repository

The callbacks once more, on the store whose counts are of type `int`. Most of them do not look at
the store, and do the same with any (`call_withKeys`); a message makes its one call on it. So **a run
writes the same, callback by callback, as long as fewer than `2 ^ 31` keys wait in every queue**
(`runInt_same`), and where they do not, an `int` overflows (`runInt_defined`).
-/

set_option autoImplicit false

namespace Akypuera
namespace Tau

open CText Search Keys Fifo

variable {σ τ : Type} {args : Arguments} {c : Callback}

/-- The same data with another store. -/
def StateOf.withKeys (st : StateOf σ) (keys : τ) : StateOf τ where
  stateNameHash := st.stateNameHash
  keys := keys
  rankLastTime := st.rankLastTime
  totalNumberOfRanks := st.totalNumberOfRanks
  endOfTrace := st.endOfTrace
  totalNumberOfLinksNotTranslated := st.totalNumberOfLinksNotTranslated
  lastTime := st.lastTime
  resolution := st.resolution

def DoneOf.withKeys (done : DoneOf σ) (keys : τ) : DoneOf τ :=
  { state := done.state.withKeys keys, outs := done.outs, result := done.result }

/-! ## Callbacks that leave the store alone -/

theorem touch_withKeys (st : StateOf σ) (keys : τ) (nodeid : UInt32) (time : ℚ) :
    (st.withKeys keys).touch nodeid time =
      (st.touch nodeid time).map fun st => st.withKeys keys := by
  have hcells : (st.withKeys keys).rankLastTime = st.rankLastTime := rfl
  rw [touch_eq, touch_eq, hcells]
  split <;> rfl

section
variable [LinkKeys σ] [LinkKeys τ]

/-- **Without a message, a callback does the same with any store**, and leaves it alone. -/
theorem call_withKeys (hop : c.op = none) (st : StateOf σ) (keys : τ) :
    c.call args (st.withKeys keys) =
      (c.call args st).map fun done => done.withKeys keys := by
  cases c with
  | clockPeriod | defStateGroup | defUserEvent | defState => rfl
  | sendMessage | recvMessage => cases hop
  | defThread nodeid threadToken threadName =>
    by_cases hgrow : st.totalNumberOfRanks.toUInt32 < nodeid + 1
    · simp only [Callback.call, Tau.defThread, StateOf.withKeys, hgrow, if_true]
      cases (st.rankLastTime.resize (nodeid + 1).toInt32).write nodeid.toNat 0 <;> rfl
    · simp only [Callback.call, Tau.defThread, StateOf.withKeys, hgrow, if_false]
      cases st.rankLastTime.write nodeid.toNat 0 <;> rfl
  | endTrace nodeid threadid =>
    simp only [Callback.call, endTrace, StateOf.withKeys]
    split
    · rfl
    · split <;> rfl
  | enterState time nodeid tid stateid =>
    simp only [Callback.call, Tau.enterState, StateOf.withKeys, StateOf.touch]
    cases st.stateNameHash.find (stateKey stateid) with
    | none => rfl
    | some text =>
      cases st.rankLastTime.write nodeid.toNat (timeToSeconds st.resolution time) <;> rfl
  | leaveState time nodeid tid stateid =>
    simp only [Callback.call, Tau.leaveState, StateOf.withKeys, StateOf.touch]
    cases st.stateNameHash.find (stateKey stateid) with
    | none => rfl
    | some text =>
      cases st.rankLastTime.write nodeid.toNat (timeToSeconds st.resolution time) <;> rfl
  | eventTrigger time nodeToken threadToken userEventToken userEventValue =>
    simp only [Callback.call, Tau.eventTrigger, touch_withKeys]
    cases st.touch nodeToken time <;> rfl

theorem keys_call (hop : c.op = none) {st : StateOf σ} {done : DoneOf σ}
    (h : c.call args st = .ok done) : done.state.keys = st.keys := by
  have hsame := @call_withKeys σ σ args c _ _ hop st st.keys
  rw [show st.withKeys st.keys = st from rfl, h] at hsame
  exact congrArg (fun done => done.state.keys) (Except.ok.inj hsame)

end

/-! ## Messages -/

/-- What a message does after its call on the store. -/
def written (args : Arguments) (st : StateOf σ) (keys : τ) (time : ℚ)
    (source destination : UInt32) (line : ℚ → Paje) : Except Stop (DoneOf τ) := do
  let st ← (st.withKeys keys).touch source time
  let st ← st.touch destination time
  let seconds := timeToSeconds st.resolution time
  return { state := { st with lastTime := seconds }
           outs := if args.dummy then [] else [line seconds], result := 0 }

theorem written_eq (st : StateOf σ) (keys : τ) (time : ℚ) (source destination : UInt32)
    (line : ℚ → Paje) :
    written args st keys time source destination line =
      if source.toNat < st.rankLastTime.length ∧ destination.toNat < st.rankLastTime.length then
        .ok { state := (((st.touched source time).touched destination time).at time).withKeys keys
              outs := if args.dummy then [] else [line (timeToSeconds st.resolution time)]
              result := 0 }
      else .error .fault :=
  touch_touch_eq (st.withKeys keys) time source destination _

theorem sendMessage_written [LinkKeys σ] (hlinks : args.noLinks = false) (st : StateOf σ) (time : ℚ)
    (source destination size tag : UInt32) :
    sendMessage args st time source destination size tag =
      written args st (LinkKeys.call st.keys (.put (messageTriple source destination))).1 time source
        destination fun seconds =>
          .startLink seconds sRoot sLink (mpiProcess source) sPtp
            (cstr (LinkKeys.call st.keys (.put (messageTriple source destination))).2.key)
            (fit akyDefaultStrSize (fmtNat size.toNat))
            (fit akyDefaultStrSize (fmtNat tag.toNat)) := by
  rw [sendMessage, if_neg (by simp [hlinks])]
  rfl

theorem recvMessage_written [LinkKeys σ] (hlinks : args.noLinks = false) (st : StateOf σ) (time : ℚ)
    (source destination : UInt32) :
    recvMessage args st time source destination =
      let got := LinkKeys.call st.keys (.get (messageTriple source destination))
      if got.2.nonNull then
        written args st got.1 time source destination fun seconds =>
          .endLink seconds sRoot sLink (mpiProcess destination) sPtp (cstr got.2.key)
      else if args.ignoreErrors then .ok
        { state := { st with
            keys := got.1
            totalNumberOfLinksNotTranslated := st.totalNumberOfLinksNotTranslated + 1 }
          outs := [], result := 0 }
      else .error (.exit 1) := by
  rw [recvMessage, if_neg (by simp [hlinks])]
  rfl

/-! ## The two stores -/

/-- The same data, with either store. -/
structure Mirrored (s : StateOf IntKeys) (st : State) : Prop where
  keys : Keeps s.keys st.keys
  data : s.withKeys st.keys = st

theorem Mirrored.data' {s : StateOf IntKeys} {st : State} (h : Mirrored s st) :
    s = st.withKeys s.keys := by
  rw [← h.data]
  rfl

/-- The calls a callback makes. -/
def callsOf (args : Arguments) (c : Callback) : List Op := if args.noLinks then [] else c.op.toList

/-- A callback with either store: it ends the process with both, or it does the same unless a call
    fills its queue up. -/
structure Mirrors (ops : List Op) (st : State) (res : Except Stop (DoneOf IntKeys))
    (res' : Except Stop Done) : Prop where
  stops : ∀ stop, res' = .error stop → res = .error stop
  goes : ∀ done', res' = .ok done' → ∃ done, res = .ok done ∧
    done'.state.keys = st.keys.final ops ∧
    (st.keys.Few ops → Mirrored done.state done'.state ∧ done.outs = done'.outs) ∧
    (¬ st.keys.Few ops → done.state.keys = none)

theorem mirrors_error {ops : List Op} {st : State} (stop : Stop) :
    Mirrors ops st (.error stop) (.error stop) := by
  refine ⟨?_, ?_⟩
  · rintro _ ⟨⟩
    rfl
  · rintro _ ⟨⟩

theorem mirrors_ok {ops : List Op} {st : State} {done : DoneOf IntKeys} {done' : Done}
    (hkeys : done'.state.keys = st.keys.final ops)
    (hfew : st.keys.Few ops → Mirrored done.state done'.state ∧ done.outs = done'.outs)
    (hmany : ¬ st.keys.Few ops → done.state.keys = none) :
    Mirrors ops st (.ok done) (.ok done') := by
  refine ⟨?_, ?_⟩
  · rintro _ ⟨⟩
  · rintro _ ⟨⟩
    exact ⟨done, rfl, hkeys, hfew, hmany⟩

variable {s : StateOf IntKeys} {st : State}

theorem call_mirrors_of_none (hop : c.op = none) (h : Mirrored s st) :
    Mirrors [] st (c.call args s) (c.call args st) := by
  have hcall : c.call args s = (c.call args st).map fun done => done.withKeys s.keys := by
    conv_lhs => rw [h.data']
    exact call_withKeys hop st s.keys
  rw [hcall]
  cases hres : c.call args st with
  | error stop => exact mirrors_error stop
  | ok done =>
    have hkeys := keys_call hop hres
    refine mirrors_ok hkeys (fun _ => ⟨⟨?_, rfl⟩, rfl⟩) fun hno => absurd trivial hno
    rw [hkeys]
    exact h.keys

theorem mirrored_written (h : Mirrored s st) {ks : IntKeys} {store : KeyStore}
    (hkeys : Keeps ks store) (time : ℚ) (source destination : UInt32) :
    Mirrored ((((s.touched source time).touched destination time).at time).withKeys ks)
      ((((st.touched source time).touched destination time).at time).withKeys store) := by
  refine ⟨hkeys, ?_⟩
  rw [h.data']
  rfl

theorem sendMessage_mirrors (hlinks : args.noLinks = false) (h : Mirrored s st) (time : ℚ)
    (source destination size tag : UInt32) :
    Mirrors [.put (messageTriple source destination)] st
      (sendMessage args s time source destination size tag)
      (sendMessage args st time source destination size tag) := by
  have hlen : s.rankLastTime = st.rankLastTime := by rw [h.data']; rfl
  have hres : s.resolution = st.resolution := by rw [h.data']; rfl
  rw [sendMessage_written hlinks, sendMessage_written hlinks, written_eq, written_eq, hlen, hres]
  split
  · refine mirrors_ok rfl (fun hfew => ?_) fun hmany => ?_
    · obtain ⟨hans, hkeys⟩ := h.keys.call ((KeyStore.few_single _ _).mp hfew)
      refine ⟨mirrored_written h hkeys time source destination, ?_⟩
      rw [hans]
      rfl
    · exact h.keys.overflow fun hshort => hmany ((KeyStore.few_single _ _).mpr hshort)
  · exact mirrors_error _

theorem recvMessage_mirrors (hlinks : args.noLinks = false) (h : Mirrored s st) (time : ℚ)
    (source destination : UInt32) :
    Mirrors [.get (messageTriple source destination)] st
      (recvMessage args s time source destination)
      (recvMessage args st time source destination) := by
  have hlen : s.rankLastTime = st.rankLastTime := by rw [h.data']; rfl
  have hres : s.resolution = st.resolution := by rw [h.data']; rfl
  -- a get never fills its queue up
  have hshort : st.keys.Short (.get (messageTriple source destination)) := trivial
  have hfew : st.keys.Few [.get (messageTriple source destination)] := ⟨hshort, trivial⟩
  obtain ⟨hans, hkeys⟩ := h.keys.call hshort
  rw [recvMessage_written hlinks, recvMessage_written hlinks]
  dsimp only
  rw [hans, linkKeys_call]
  split
  · rw [written_eq, written_eq, hlen, hres]
    split
    · exact mirrors_ok rfl (fun _ => ⟨mirrored_written h hkeys time source destination, rfl⟩)
        fun hmany => absurd hfew hmany
    · exact mirrors_error _
  · split
    · refine mirrors_ok rfl (fun _ => ⟨⟨hkeys, ?_⟩, rfl⟩) fun hmany => absurd hfew hmany
      rw [h.data']
      rfl
    · exact mirrors_error _

/-- **A callback** does the same with both stores. -/
theorem call_mirrors (args : Arguments) (c : Callback) (h : Mirrored s st) :
    Mirrors (callsOf args c) st (c.call args s) (c.call args st) := by
  cases hlinks : args.noLinks with
  | false =>
    rw [callsOf, hlinks]
    cases c with
    | sendMessage time source _ destination _ size tag _ =>
      exact sendMessage_mirrors hlinks h time source destination size tag
    | recvMessage time source _ destination _ _ _ _ =>
      exact recvMessage_mirrors hlinks h time source destination
    | _ => exact call_mirrors_of_none rfl h
  | true =>
    rw [callsOf, hlinks, if_pos rfl]
    cases c with
    | sendMessage time source _ destination _ size tag _ =>
      rw [Callback.call, Callback.call, sendMessage, sendMessage, if_pos hlinks, if_pos hlinks]
      exact mirrors_ok rfl (fun _ => ⟨h, rfl⟩) fun hno => absurd trivial hno
    | recvMessage time source _ destination _ _ _ _ =>
      rw [Callback.call, Callback.call, recvMessage, recvMessage, if_pos hlinks, if_pos hlinks]
      exact mirrors_ok rfl (fun _ => ⟨h, rfl⟩) fun hno => absurd trivial hno
    | _ => exact call_mirrors_of_none rfl h

/-! ## Runs -/

/-- After an overflow nothing is defined any more. -/
theorem call_undefined (hs : s.keys = none) {done : DoneOf IntKeys}
    (hcall : c.call args s = .ok done) : done.state.keys = none := by
  cases hop : c.op with
  | none => rw [keys_call hop hcall, hs]
  | some op =>
    cases hlinks : args.noLinks with
    | true =>
      cases c with
      | sendMessage | recvMessage =>
        simp only [Callback.call, sendMessage, recvMessage, hlinks, if_true] at hcall
        cases hcall
        exact hs
      | _ => cases hop
    | false =>
      cases c with
      | sendMessage time source _ destination _ size tag _ =>
        rw [Callback.call, sendMessage_written hlinks, written_eq, hs, call_none] at hcall
        split at hcall
        · cases hcall
          rfl
        · cases hcall
      | recvMessage time source _ destination _ _ _ _ =>
        rw [Callback.call, recvMessage_written hlinks, hs] at hcall
        dsimp only at hcall
        split at hcall
        · rw [written_eq, call_none] at hcall
          split at hcall
          · cases hcall
            rfl
          · cases hcall
        · split at hcall
          · cases hcall
            rfl
          · cases hcall
      | _ => cases hop

theorem run_undefined (hs : s.keys = none) (cs : List Callback) :
    (run args s cs).state.keys = none := by
  induction cs generalizing s with
  | nil => exact hs
  | cons c cs ih =>
    unfold run
    cases hcall : c.call args s with
    | error stop => exact hs
    | ok done => exact ih (call_undefined hs hcall)

/-- The calls a run makes. -/
def RunOf.calls (args : Arguments) (r : RunOf σ) : List Op := r.callbacks.flatMap (callsOf args)

/-- **A run** does the same with both stores, unless a queue fills up. -/
theorem run_mirrors (args : Arguments) (h : Mirrored s st) (cs : List Callback) :
    (st.keys.Few ((run args st cs).calls args) →
      (run args s cs).rounds = (run args st cs).rounds ∧
        (run args s cs).stop = (run args st cs).stop ∧
        Mirrored (run args s cs).state (run args st cs).state) ∧
    (¬ st.keys.Few ((run args st cs).calls args) → (run args s cs).state.keys = none) := by
  induction cs generalizing s st with
  | nil => exact ⟨fun _ => ⟨rfl, rfl, h⟩, fun hno => absurd trivial hno⟩
  | cons c cs ih =>
    have hmirrors := call_mirrors args c h
    unfold run
    cases hcall : c.call args st with
    | error stop =>
      rw [hmirrors.stops stop hcall]
      exact ⟨fun _ => ⟨rfl, rfl, h⟩, fun hno => absurd trivial hno⟩
    | ok done' =>
      obtain ⟨done, hdone, hkeys, hsame, hlost⟩ := hmirrors.goes done' hcall
      rw [hdone]
      dsimp only
      have hcalls : ∀ r : Run, RunOf.calls args { r with rounds := (c, done'.outs) :: r.rounds } =
          callsOf args c ++ r.calls args := fun r => by simp [RunOf.calls, RunOf.callbacks]
      rw [hcalls, KeyStore.few_append, ← hkeys]
      refine ⟨fun hfew => ?_, fun hmany => ?_⟩
      · obtain ⟨hstate, houts⟩ := hsame hfew.1
        obtain ⟨hrounds, hstop, hlast⟩ := (ih hstate).1 hfew.2
        exact ⟨by rw [hrounds, houts], hstop, hlast⟩
      · by_cases hfew : st.keys.Few (callsOf args c)
        · exact (ih (hsame hfew).1).2 fun hrest => hmany ⟨hfew, hrest⟩
        · exact run_undefined (hlost hfew) cs

theorem mirrored_init (resolution : ℚ) :
    Mirrored (StateOf.init resolution) (State.init resolution) := ⟨Keeps.init _, rfl⟩

/-- A run on the store of the repository. -/
def runInt (args : Arguments) (resolution : ℚ) (cs : List Callback) : RunOf IntKeys :=
  run args (StateOf.init resolution) cs

/-- No `int` has overflowed. -/
def RunOf.Defined (r : RunOf IntKeys) : Prop := r.state.keys.isSome = true

theorem runInt_defined (args : Arguments) (resolution : ℚ) (cs : List Callback) :
    (runInt args resolution cs).Defined ↔ (State.init resolution).keys.Few
      ((run args (State.init resolution) cs).calls args) := by
  obtain ⟨hsame, hlost⟩ := run_mirrors args (mirrored_init resolution) cs
  exact Keeps.isSome_iff (fun hfew => (hsame hfew).2.2.keys) hlost

/-- **And until then the store that never overflows does the same.** -/
theorem runInt_same {resolution : ℚ} {cs : List Callback}
    (hdefined : (runInt args resolution cs).Defined) :
    (runInt args resolution cs).rounds = (run args (State.init resolution) cs).rounds ∧
      (runInt args resolution cs).stop = (run args (State.init resolution) cs).stop ∧
      Mirrored (runInt args resolution cs).state (run args (State.init resolution) cs).state :=
  (run_mirrors args (mirrored_init resolution) cs).1
    ((runInt_defined args resolution cs).mp hdefined)

end Tau
end Akypuera

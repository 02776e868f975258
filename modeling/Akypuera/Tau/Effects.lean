import Akypuera.Tau.Threads

/-!
# What a callback does

`Effect` has one case for each way a callback of tau2paje can return, with what must hold for it to
be taken and all that it changes. **A callback returns in these ways and no others**
(`call_iff_effect`), whatever its arguments are and whatever the static data hold, so what is said
of all callbacks is proved by cases on it.
-/

set_option autoImplicit false

namespace Akypuera
namespace Tau

open CText Search Keys

/-- The text an `EnterState` leaves in the table, and the name it pushes. -/
def nameEntered (args : Arguments) (text : Str) : Str × Str :=
  if args.normalizeMpi ∧ strstr text "MPI".toList then normalize text else (text, text)

/-- What `DefThread` makes of the number of ranks and the array. -/
def StateOf.grown {σ : Type} (st : StateOf σ) (nodeid : UInt32) : Int32 × Cells ℚ :=
  if st.totalNumberOfRanks.toUInt32 < nodeid + 1 then
    ((nodeid + 1).toInt32, st.rankLastTime.resize (nodeid + 1).toInt32)
  else (st.totalNumberOfRanks, st.rankLastTime)

/-- The entry of a node is set. -/
def StateOf.touched {σ : Type} (st : StateOf σ) (nodeid : UInt32) (time : ℚ) : StateOf σ :=
  { st with
    rankLastTime :=
      List.set st.rankLastTime nodeid.toNat (some (timeToSeconds st.resolution time)) }

/-- The data after an event at a time. -/
def StateOf.at {σ : Type} (st : StateOf σ) (time : ℚ) : StateOf σ :=
  { st with lastTime := timeToSeconds st.resolution time }

/-- **The ways a callback returns.** -/
inductive Effect (args : Arguments) (st : State) : Callback → Done → Prop where
  | clockPeriod (clkPeriod : ℚ) :
      Effect args st (.clockPeriod clkPeriod)
        { state := { st with resolution := .ofPeriod clkPeriod }, outs := [], result := 0 }
  | defThread {nodeid threadToken : UInt32} {threadName : Str}
      (hlt : nodeid.toNat < (st.grown nodeid).2.length) :
      Effect args st (.defThread nodeid threadToken threadName)
        { state := { st with
            totalNumberOfRanks := (st.grown nodeid).1
            rankLastTime := List.set (st.grown nodeid).2 nodeid.toNat (some 0) }
          outs := if args.dummy then [] else
            [.createContainer 0 (mpiProcess nodeid) sProcess sRoot (mpiProcess nodeid)]
          result := 0 }
  | endTraceDummy {nodeid threadid : UInt32} (hdummy : args.dummy = true) :
      Effect args st (.endTrace nodeid threadid)
        { state := { st with endOfTrace := true }, outs := [], result := 0 }
  | endTrace {nodeid threadid : UInt32} {time : ℚ} (hdummy : args.dummy = false)
      (hread : st.rankLastTime.read nodeid.toNat = some time) :
      Effect args st (.endTrace nodeid threadid)
        { state := { st with endOfTrace := true }
          outs := [.destroyContainer time sProcess (mpiProcess nodeid)], result := 0 }
  | defStateGroup (stateGroupToken : UInt32) (stateGroupName : Str) :
      Effect args st (.defStateGroup stateGroupToken stateGroupName)
        { state := st, outs := [], result := 0 }
  | defUserEvent (userEventToken : UInt32) (userEventName : Str) (increasing : Int32) :
      Effect args st (.defUserEvent userEventToken userEventName increasing)
        { state := st, outs := [], result := 0 }
  | defState (stateid : UInt32) (statename : Str) (stateGroupToken : UInt32) :
      Effect args st (.defState stateid statename stateGroupToken)
        { state := { st with stateNameHash := defineName args st.stateNameHash stateid statename }
          outs := [], result := 0 }
  | unknown {c : Callback} {stateid : UInt32} (hstate : c.stateid = some stateid)
      (hfind : st.stateNameHash.find (stateKey stateid) = none) :
      Effect args st c { state := st, outs := [], result := 1 }
  | enterState {time : ℚ} {nodeid tid stateid : UInt32} {text : Str}
      (hfind : st.stateNameHash.find (stateKey stateid) = some text)
      (hlt : nodeid.toNat < st.rankLastTime.length) :
      Effect args st (.enterState time nodeid tid stateid)
        { state := { (st.touched nodeid time).at time with
            stateNameHash := st.stateNameHash.set (stateKey stateid) (nameEntered args text).1 }
          outs := if ¬ args.dummy ∧ ¬ args.noStates then
            [.pushState (timeToSeconds st.resolution time) (mpiProcess nodeid) sState
              (nameEntered args text).2] else []
          result := 0 }
  | leaveState {time : ℚ} {nodeid tid stateid : UInt32} {text : Str}
      (hfind : st.stateNameHash.find (stateKey stateid) = some text)
      (hlt : nodeid.toNat < st.rankLastTime.length) :
      Effect args st (.leaveState time nodeid tid stateid)
        { state := (st.touched nodeid time).at time
          outs := if ¬ args.dummy ∧ ¬ args.noStates then
            [.popState (timeToSeconds st.resolution time) (mpiProcess nodeid) sState] else []
          result := 0 }
  | eventTrigger {time : ℚ} {nodeToken threadToken userEventToken : UInt32}
      {userEventValue : Int64} (hlt : nodeToken.toNat < st.rankLastTime.length) :
      Effect args st (.eventTrigger time nodeToken threadToken userEventToken userEventValue)
        { state := (st.touched nodeToken time).at time, outs := [], result := 0 }
  | noLinks {c : Callback} {op : Op} (hop : c.op = some op) (hlinks : args.noLinks = true) :
      Effect args st c { state := st, outs := [], result := 0 }
  | sendMessage {time : ℚ} {source sourceThread destination destinationThread size tag comm : UInt32}
      (hlinks : args.noLinks = false) (hs : source.toNat < st.rankLastTime.length)
      (hd : destination.toNat < st.rankLastTime.length) :
      Effect args st
        (.sendMessage time source sourceThread destination destinationThread size tag comm)
        { state := { ((st.touched source time).touched destination time).at time with
            keys := (st.keys.call (.put (messageTriple source destination))).1 }
          outs := if args.dummy then [] else
            [.startLink (timeToSeconds st.resolution time) sRoot sLink (mpiProcess source) sPtp
              (cstr (st.keys.call (.put (messageTriple source destination))).2.key)
              (fit akyDefaultStrSize (fmtNat size.toNat))
              (fit akyDefaultStrSize (fmtNat tag.toNat))]
          result := 0 }
  | recvMessage {time : ℚ} {source sourceThread destination destinationThread size tag comm : UInt32}
      (hlinks : args.noLinks = false)
      (hkey : (st.keys.call (.get (messageTriple source destination))).2.nonNull = true)
      (hs : source.toNat < st.rankLastTime.length)
      (hd : destination.toNat < st.rankLastTime.length) :
      Effect args st
        (.recvMessage time source sourceThread destination destinationThread size tag comm)
        { state := { ((st.touched source time).touched destination time).at time with
            keys := (st.keys.call (.get (messageTriple source destination))).1 }
          outs := if args.dummy then [] else
            [.endLink (timeToSeconds st.resolution time) sRoot sLink (mpiProcess destination) sPtp
              (cstr (st.keys.call (.get (messageTriple source destination))).2.key)]
          result := 0 }
  | recvMissed {time : ℚ} {source sourceThread destination destinationThread size tag comm : UInt32}
      (hlinks : args.noLinks = false)
      (hkey : (st.keys.call (.get (messageTriple source destination))).2.nonNull = false)
      (hignore : args.ignoreErrors = true) :
      Effect args st
        (.recvMessage time source sourceThread destination destinationThread size tag comm)
        { state := { st with
            keys := (st.keys.call (.get (messageTriple source destination))).1
            totalNumberOfLinksNotTranslated := st.totalNumberOfLinksNotTranslated + 1 }
          outs := [], result := 0 }

/-- The line that a callback may write. -/
inductive Writes : Callback → Paje → Prop where
  | create (nodeid threadToken : UInt32) (threadName : Str) :
      Writes (.defThread nodeid threadToken threadName)
        (.createContainer 0 (mpiProcess nodeid) sProcess sRoot (mpiProcess nodeid))
  | destroy (nodeid threadid : UInt32) (time : ℚ) :
      Writes (.endTrace nodeid threadid) (.destroyContainer time sProcess (mpiProcess nodeid))
  | push (time now : ℚ) (nodeid tid stateid : UInt32) (value : Str) :
      Writes (.enterState time nodeid tid stateid) (.pushState now (mpiProcess nodeid) sState value)
  | pop (time now : ℚ) (nodeid tid stateid : UInt32) :
      Writes (.leaveState time nodeid tid stateid) (.popState now (mpiProcess nodeid) sState)
  | start (time now : ℚ) (source sourceThread destination destinationThread size tag comm : UInt32)
      (key length mark : Str) :
      Writes (.sendMessage time source sourceThread destination destinationThread size tag comm)
        (.startLink now sRoot sLink (mpiProcess source) sPtp key length mark)
  | stop (time now : ℚ) (source sourceThread destination destinationThread size tag comm : UInt32)
      (key : Str) :
      Writes (.recvMessage time source sourceThread destination destinationThread size tag comm)
        (.endLink now sRoot sLink (mpiProcess destination) sPtp key)

theorem Effect.writes {args : Arguments} {st : State} {c : Callback} {done : Done}
    (h : Effect args st c done) : ∀ p ∈ done.outs, Writes c p := by
  intro p hp
  cases h with
  | clockPeriod | endTraceDummy | defStateGroup | defUserEvent | defState | eventTrigger | unknown
  | noLinks | recvMissed => exact absurd hp List.not_mem_nil
  | endTrace =>
    rw [List.mem_singleton.mp hp]
    constructor
  | defThread | sendMessage | recvMessage =>
    split at hp
    · exact absurd hp List.not_mem_nil
    · rw [List.mem_singleton.mp hp]
      constructor
  | enterState | leaveState =>
    split at hp
    · rw [List.mem_singleton.mp hp]
      constructor
    · exact absurd hp List.not_mem_nil

theorem touch_of_lt {σ : Type} {st : StateOf σ} {nodeid : UInt32} (time : ℚ)
    (h : nodeid.toNat < st.rankLastTime.length) :
    st.touch nodeid time = .ok (st.touched nodeid time) := by
  rw [StateOf.touch, Cells.write_of_lt _ h]
  rfl

theorem touch_eq {σ : Type} (st : StateOf σ) (nodeid : UInt32) (time : ℚ) :
    st.touch nodeid time = if nodeid.toNat < st.rankLastTime.length then
      .ok (st.touched nodeid time) else .error .fault := by
  by_cases hlt : nodeid.toNat < st.rankLastTime.length
  · rw [if_pos hlt, touch_of_lt time hlt]
  · rw [if_neg hlt, StateOf.touch, Cells.write_of_length_le _ (Nat.le_of_not_lt hlt)]

theorem defThread_eq (args : Arguments) (st : State) (nodeid : UInt32) :
    defThread args st nodeid = if nodeid.toNat < (st.grown nodeid).2.length then
      .ok { state := { st with
              totalNumberOfRanks := (st.grown nodeid).1
              rankLastTime := List.set (st.grown nodeid).2 nodeid.toNat (some 0) }
            outs := if args.dummy then [] else
              [.createContainer 0 (mpiProcess nodeid) sProcess sRoot (mpiProcess nodeid)]
            result := 0 }
    else .error .fault := by
  by_cases hlt : nodeid.toNat < (st.grown nodeid).2.length
  · have hwrite := Cells.write_of_lt (0 : ℚ) hlt
    rw [if_pos hlt]
    rw [StateOf.grown] at hwrite ⊢
    simp only [defThread, hwrite]
  · have hwrite := Cells.write_of_length_le (0 : ℚ) (Nat.le_of_not_lt hlt)
    rw [if_neg hlt]
    rw [StateOf.grown] at hwrite
    simp only [defThread, hwrite]

variable {args : Arguments} {st : State}

theorem enterState_eq {stateid : UInt32} {text : Str}
    (hfind : st.stateNameHash.find (stateKey stateid) = some text) (time : ℚ) (nodeid : UInt32) :
    enterState args st time nodeid stateid = if nodeid.toNat < st.rankLastTime.length then
      .ok { state := { (st.touched nodeid time).at time with
              stateNameHash := st.stateNameHash.set (stateKey stateid) (nameEntered args text).1 }
            outs := if ¬ args.dummy ∧ ¬ args.noStates then
              [.pushState (timeToSeconds st.resolution time) (mpiProcess nodeid) sState
                (nameEntered args text).2] else []
            result := 0 }
    else .error .fault := by
  have hbind : enterState args st time nodeid stateid = (do
      let st ← StateOf.touch { st with
        stateNameHash := st.stateNameHash.set (stateKey stateid) (nameEntered args text).1 }
          nodeid time
      return { state := st.at time
               outs := if ¬ args.dummy ∧ ¬ args.noStates then
                 [.pushState (timeToSeconds st.resolution time) (mpiProcess nodeid) sState
                   (nameEntered args text).2] else []
               result := 0 }) := by
    rw [enterState, hfind]
    rfl
  rw [hbind, touch_eq]
  by_cases hlt : nodeid.toNat < st.rankLastTime.length
  · rw [if_pos hlt, if_pos hlt]
    rfl
  · rw [if_neg hlt, if_neg hlt]
    rfl

theorem leaveState_eq {stateid : UInt32} {text : Str}
    (hfind : st.stateNameHash.find (stateKey stateid) = some text) (time : ℚ) (nodeid : UInt32) :
    leaveState args st time nodeid stateid = if nodeid.toNat < st.rankLastTime.length then
      .ok { state := (st.touched nodeid time).at time
            outs := if ¬ args.dummy ∧ ¬ args.noStates then
              [.popState (timeToSeconds st.resolution time) (mpiProcess nodeid) sState] else []
            result := 0 }
    else .error .fault := by
  rw [leaveState, hfind]
  simp only []
  rw [touch_eq]
  by_cases hlt : nodeid.toNat < st.rankLastTime.length
  · rw [if_pos hlt, if_pos hlt]
    rfl
  · rw [if_neg hlt, if_neg hlt]
    rfl

theorem eventTrigger_eq (st : State) (time : ℚ) (nodeToken : UInt32) :
    eventTrigger st time nodeToken = if nodeToken.toNat < st.rankLastTime.length then
      .ok { state := (st.touched nodeToken time).at time, outs := [], result := 0 }
    else .error .fault := by
  rw [eventTrigger, touch_eq]
  by_cases hlt : nodeToken.toNat < st.rankLastTime.length
  · rw [if_pos hlt, if_pos hlt]
    rfl
  · rw [if_neg hlt, if_neg hlt]
    rfl

/-- The entries of both ends of a message. -/
theorem touch_touch_eq {σ : Type} (st : StateOf σ) (time : ℚ) (n n' : UInt32) {α : Type}
    (f : StateOf σ → Except Stop α) :
    (do let st ← st.touch n time
        let st ← st.touch n' time
        f st) =
      if n.toNat < st.rankLastTime.length ∧ n'.toNat < st.rankLastTime.length then
        f ((st.touched n time).touched n' time) else .error .fault := by
  by_cases hn : n.toNat < st.rankLastTime.length
  · by_cases hn' : n'.toNat < st.rankLastTime.length
    · have hsecond := @touch_of_lt σ (st.touched n time) n' time ((List.length_set ..).symm ▸ hn')
      rw [if_pos ⟨hn, hn'⟩, touch_of_lt time hn]
      simp only [bind, Except.bind, hsecond]
    · have hlen : ¬ n'.toNat < (st.touched n time).rankLastTime.length := by
        rw [StateOf.touched, List.length_set]
        exact hn'
      have hsecond := touch_eq (st.touched n time) n' time
      rw [if_neg hlen] at hsecond
      rw [if_neg fun h => hn' h.2, touch_of_lt time hn]
      simp only [bind, Except.bind, hsecond]
  · rw [if_neg fun h => hn h.1, touch_eq, if_neg hn]
    rfl

theorem sendMessage_eq (hlinks : args.noLinks = false) (st : State) (time : ℚ)
    (source destination size tag : UInt32) :
    sendMessage args st time source destination size tag =
      if source.toNat < st.rankLastTime.length ∧ destination.toNat < st.rankLastTime.length then
        .ok { state := { ((st.touched source time).touched destination time).at time with
                keys := (st.keys.call (.put (messageTriple source destination))).1 }
              outs := if args.dummy then [] else
                [.startLink (timeToSeconds st.resolution time) sRoot sLink (mpiProcess source) sPtp
                  (cstr (st.keys.call (.put (messageTriple source destination))).2.key)
                  (fit akyDefaultStrSize (fmtNat size.toNat))
                  (fit akyDefaultStrSize (fmtNat tag.toNat))]
              result := 0 }
      else .error .fault := by
  rw [sendMessage, if_neg (by simp [hlinks])]
  exact touch_touch_eq { st with
    keys := (st.keys.call (.put (messageTriple source destination))).1 } time source destination _

theorem recvMessage_eq (hlinks : args.noLinks = false) (time : ℚ) {source destination : UInt32}
    (hkey : (st.keys.call (.get (messageTriple source destination))).2.nonNull = true) :
    recvMessage args st time source destination =
      if source.toNat < st.rankLastTime.length ∧ destination.toNat < st.rankLastTime.length then
        .ok { state := { ((st.touched source time).touched destination time).at time with
                keys := (st.keys.call (.get (messageTriple source destination))).1 }
              outs := if args.dummy then [] else
                [.endLink (timeToSeconds st.resolution time) sRoot sLink (mpiProcess destination)
                  sPtp (cstr (st.keys.call (.get (messageTriple source destination))).2.key)]
              result := 0 }
      else .error .fault := by
  rw [recvMessage, if_neg (by simp [hlinks])]
  simp only [linkKeys_call, hkey, if_true]
  exact touch_touch_eq { st with
    keys := (st.keys.call (.get (messageTriple source destination))).1 } time source destination _

/-- A receive without a key. -/
theorem recvMessage_missed (hlinks : args.noLinks = false) (time : ℚ) {source destination : UInt32}
    (hkey : (st.keys.call (.get (messageTriple source destination))).2.nonNull = false) :
    recvMessage args st time source destination = if args.ignoreErrors then
        .ok { state := { st with
                keys := (st.keys.call (.get (messageTriple source destination))).1
                totalNumberOfLinksNotTranslated := st.totalNumberOfLinksNotTranslated + 1 }
              outs := [], result := 0 }
      else .error (.exit 1) := by
  rw [recvMessage, if_neg (by simp [hlinks])]
  simp only [linkKeys_call, hkey, Bool.false_eq_true, if_false]

/-- A case of `call_iff_effect` that ends in a check of an index. -/
theorem ite_ok {p : Prop} [Decidable p] {done done' : Done}
    (h : (if p then Except.ok done else .error Stop.fault) = .ok done') : p ∧ done' = done := by
  split at h
  · next hp => exact ⟨hp, (Except.ok.inj h).symm⟩
  · cases h

/-- **Callbacks return in the ways of `Effect` and no others.** -/
theorem call_iff_effect {c : Callback} {done : Done} :
    c.call args st = .ok done ↔ Effect args st c done := by
  constructor
  · intro h
    cases c with
    | clockPeriod clkPeriod => cases h; exact .clockPeriod clkPeriod
    | defThread nodeid threadToken threadName =>
      obtain ⟨hlt, rfl⟩ := ite_ok ((defThread_eq args st nodeid).symm.trans h)
      exact .defThread hlt
    | endTrace nodeid threadid =>
      simp only [Callback.call, endTrace] at h
      cases hdummy : args.dummy with
      | true => rw [if_pos hdummy] at h; cases h; exact .endTraceDummy hdummy
      | false =>
        rw [if_neg (by simp [hdummy])] at h
        cases hread : st.rankLastTime.read nodeid.toNat with
        | none => rw [hread] at h; cases h
        | some time => rw [hread] at h; cases h; exact .endTrace hdummy hread
    | defStateGroup stateGroupToken stateGroupName => cases h; exact .defStateGroup _ _
    | defState stateid statename stateGroupToken => cases h; exact .defState _ _ _
    | defUserEvent userEventToken userEventName increasing => cases h; exact .defUserEvent _ _ _
    | enterState time nodeid tid stateid =>
      cases hfind : st.stateNameHash.find (stateKey stateid) with
      | none =>
        simp only [Callback.call, enterState, hfind] at h
        cases h
        exact .unknown rfl hfind
      | some text =>
        obtain ⟨hlt, rfl⟩ := ite_ok ((enterState_eq hfind time nodeid).symm.trans h)
        exact .enterState hfind hlt
    | leaveState time nodeid tid stateid =>
      cases hfind : st.stateNameHash.find (stateKey stateid) with
      | none =>
        simp only [Callback.call, leaveState, hfind] at h
        cases h
        exact .unknown rfl hfind
      | some text =>
        obtain ⟨hlt, rfl⟩ := ite_ok ((leaveState_eq hfind time nodeid).symm.trans h)
        exact .leaveState hfind hlt
    | eventTrigger time nodeToken threadToken userEventToken userEventValue =>
      obtain ⟨hlt, rfl⟩ := ite_ok ((eventTrigger_eq st time nodeToken).symm.trans h)
      exact .eventTrigger hlt
    | sendMessage time source sourceThread destination destinationThread size tag comm =>
      cases hlinks : args.noLinks with
      | true =>
        simp only [Callback.call, sendMessage, hlinks, if_true] at h
        cases h
        exact .noLinks rfl hlinks
      | false =>
        obtain ⟨hlt, rfl⟩ := ite_ok ((sendMessage_eq hlinks st time _ _ size tag).symm.trans h)
        exact .sendMessage hlinks hlt.1 hlt.2
    | recvMessage time source sourceThread destination destinationThread size tag comm =>
      cases hlinks : args.noLinks with
      | true =>
        simp only [Callback.call, recvMessage, hlinks, if_true] at h
        cases h
        exact .noLinks rfl hlinks
      | false =>
        cases hkey : (st.keys.call (.get (messageTriple source destination))).2.nonNull with
        | true =>
          obtain ⟨hlt, rfl⟩ := ite_ok ((recvMessage_eq hlinks time hkey).symm.trans h)
          exact .recvMessage hlinks hkey hlt.1 hlt.2
        | false =>
          have hmissed := (recvMessage_missed hlinks time hkey).symm.trans h
          cases hignore : args.ignoreErrors with
          | true =>
            rw [if_pos hignore] at hmissed
            cases hmissed
            exact .recvMissed hlinks hkey hignore
          | false =>
            rw [if_neg (by simp [hignore])] at hmissed
            cases hmissed
  · intro h
    cases h with
    | clockPeriod | defStateGroup | defUserEvent | defState => rfl
    | defThread hlt => exact (defThread_eq args st _).trans (if_pos hlt)
    | endTraceDummy hdummy => exact if_pos hdummy
    | endTrace hdummy hread =>
      simp only [Callback.call, endTrace, hdummy, hread]
      rfl
    | unknown hstate hfind =>
      cases c with
      | enterState | leaveState =>
        cases hstate
        simp only [Callback.call, enterState, leaveState, hfind]
      | _ => cases hstate
    | enterState hfind hlt => exact (enterState_eq hfind _ _).trans (if_pos hlt)
    | leaveState hfind hlt => exact (leaveState_eq hfind _ _).trans (if_pos hlt)
    | eventTrigger hlt => exact (eventTrigger_eq st _ _).trans (if_pos hlt)
    | noLinks hop hlinks =>
      cases c with
      | sendMessage | recvMessage =>
        simp only [Callback.call, sendMessage, recvMessage, hlinks, if_true]
      | _ => cases hop
    | sendMessage hlinks hs hd => exact (sendMessage_eq hlinks st _ _ _ _ _).trans (if_pos ⟨hs, hd⟩)
    | recvMessage hlinks hkey hs hd =>
      exact (recvMessage_eq hlinks _ hkey).trans (if_pos ⟨hs, hd⟩)
    | recvMissed hlinks hkey hignore =>
      exact (recvMessage_missed hlinks _ hkey).trans (if_pos hignore)

/-! ## Runs -/

theorem run_ok {c : Callback} {done : Done} (h : c.call args st = .ok done) (cs : List Callback) :
    run args st (c :: cs) =
      { run args done.state cs with rounds := (c, done.outs) :: (run args done.state cs).rounds } := by
  rw [run, h]

theorem run_error {c : Callback} {stop : Stop} (h : c.call args st = .error stop)
    (cs : List Callback) :
    run args st (c :: cs) = { rounds := [], state := st, stop := some stop } := by
  rw [run, h]

theorem run_cons_ok {c : Callback} {done : Done} (h : c.call args st = .ok done)
    (cs : List Callback) :
    (run args st (c :: cs)).rounds = (c, done.outs) :: (run args done.state cs).rounds := by
  rw [run_ok h]

theorem run_cons_error {c : Callback} {stop : Stop} (h : c.call args st = .error stop)
    (cs : List Callback) : (run args st (c :: cs)).rounds = [] := by
  rw [run_error h]

/-- The callbacks that are made. -/
def RunOf.callbacks {σ : Type} (r : RunOf σ) : List Callback := r.rounds.map Prod.fst

theorem callbacks_made (args : Arguments) (st : State) (cs : List Callback) :
    (run args st cs).callbacks <+: cs := by
  induction cs generalizing st with
  | nil => exact List.nil_prefix
  | cons c cs ih =>
    cases hcall : c.call args st with
    | error stop =>
      rw [run_error hcall]
      exact List.nil_prefix
    | ok done =>
      rw [run_ok hcall]
      exact (List.prefix_cons_inj c).mpr (ih done.state)

/-- Those of a longer run. -/
theorem callbacks_append (args : Arguments) (st : State) (cs later : List Callback) :
    (run args st cs).callbacks <+: (run args st (cs ++ later)).callbacks := by
  induction cs generalizing st with
  | nil => exact List.nil_prefix
  | cons c cs ih =>
    rw [List.cons_append]
    cases hcall : c.call args st with
    | error stop =>
      rw [run_error hcall]
      exact List.nil_prefix
    | ok done =>
      rw [run_ok hcall, run_ok hcall]
      exact (List.prefix_cons_inj c).mpr (ih done.state)

/-- A run that was not ended made all callbacks. -/
theorem callbacks_of_stop {st : State} {cs : List Callback} (h : (run args st cs).stop = none) :
    (run args st cs).callbacks = cs := by
  induction cs generalizing st with
  | nil => rfl
  | cons c cs ih =>
    cases hcall : c.call args st with
    | error stop =>
      rw [run_error hcall] at h
      cases h
    | ok done =>
      rw [run_ok hcall] at h ⊢
      exact congrArg (c :: ·) (ih h)

/-- Where each round comes from. -/
theorem exists_call {st : State} {cs : List Callback} {x : Callback × List Paje}
    (hx : x ∈ (run args st cs).rounds) :
    ∃ (st' : State) (done : Done), x.1.call args st' = .ok done ∧ x.2 = done.outs := by
  induction cs generalizing st with
  | nil => exact absurd hx (by simp [run])
  | cons c cs ih =>
    cases hcall : c.call args st with
    | error stop => exact absurd hx (by simp [run, hcall])
    | ok done =>
      simp only [run, hcall] at hx
      rcases List.mem_cons.mp hx with rfl | hx
      · exact ⟨st, done, hcall, rfl⟩
      · exact ih hx

/-! ## The array -/

/-- The array has as many entries as there are ranks. -/
structure Sized (st : State) (ranks : Nat) : Prop where
  total : st.totalNumberOfRanks.toInt = ranks
  cells : st.rankLastTime.length = ranks

variable {ranks : Nat} {nodeid : UInt32}

theorem Sized.toUInt32 (h : Sized st ranks) : st.totalNumberOfRanks.toUInt32.toNat = ranks := by
  have hpos : (0 : Int32) ≤ st.totalNumberOfRanks := by
    rw [Int32.le_iff_toInt_le, h.total]
    exact Int.natCast_nonneg _
  rw [Int32.toNat_toUInt32_of_le hpos, ← Int32.toNat_toInt, h.total, Int.toNat_natCast]

theorem Sized.lt (h : Sized st ranks) : ranks < 2 ^ 31 := by
  have hlt := st.totalNumberOfRanks.toInt_lt
  rw [h.total] at hlt
  exact Int.ofNat_lt.mp hlt

theorem toNat_succ (hroom : nodeid.toNat + 1 < 2 ^ 32) : (nodeid + 1).toNat = nodeid.toNat + 1 := by
  rw [UInt32.toNat_add, UInt32.toNat_one, Nat.mod_eq_of_lt hroom]

/-- **It grows to a new node**, and keeps what it holds. -/
theorem Sized.grown (h : Sized st ranks) (hroom : nodeid.toNat + 1 < 2 ^ 31) :
    (st.grown nodeid).1.toInt = (max ranks (nodeid.toNat + 1) : Nat) ∧
      (st.grown nodeid).2.length = max ranks (nodeid.toNat + 1) ∧
      ∀ i < ranks, (st.grown nodeid).2.read i = st.rankLastTime.read i := by
  have hnode : (nodeid + 1).toNat = nodeid.toNat + 1 := toNat_succ (by omega)
  have hnew : (nodeid + 1).toInt32.toInt = (nodeid.toNat + 1 : Nat) := by
    rw [Cells.toInt_toInt32 (by omega), hnode]
  have hcompare : st.totalNumberOfRanks.toUInt32 < nodeid + 1 ↔ ranks < nodeid.toNat + 1 := by
    rw [UInt32.lt_iff_toNat_lt, h.toUInt32, hnode]
  rw [StateOf.grown]
  by_cases hlt : ranks < nodeid.toNat + 1
  · rw [if_pos (hcompare.mpr hlt), Cells.resize_of_toInt hnew, Nat.max_eq_right (Nat.le_of_lt hlt)]
    refine ⟨hnew, Cells.length_realloc _ _, fun i hi => Cells.read_realloc _ ?_⟩
    exact Nat.lt_trans hi hlt
  · rw [if_neg (mt hcompare.mp hlt), Nat.max_eq_left (Nat.le_of_not_lt hlt)]
    exact ⟨h.total, h.cells, fun _ _ => rfl⟩

/-- From 2^31 - 1 on, the number of ranks is negative or 0 if it changes, and there is no entry for
    the node. -/
theorem Sized.grown_large (h : Sized st ranks) (hroom : ¬ nodeid.toNat + 1 < 2 ^ 31) :
    (st.grown nodeid).1.toInt ≤ nodeid.toNat ∧ (st.grown nodeid).2.length ≤ nodeid.toNat := by
  have hranks := h.lt
  have hclamp := Cells.toNatClampNeg_succ_le hroom
  rw [StateOf.grown]
  split
  · refine ⟨?_, ?_⟩
    · show (nodeid + 1).toInt32.toInt ≤ _
      rw [← Int32.toNat_toInt] at hclamp
      omega
    · show (Cells.resize _ _).length ≤ _
      rw [Cells.resize]
      split
      · exact Nat.zero_le _
      · rw [Cells.length_realloc]
        exact hclamp
  · refine ⟨?_, ?_⟩
    · show st.totalNumberOfRanks.toInt ≤ _
      rw [h.total]
      omega
    · show st.rankLastTime.length ≤ _
      rw [h.cells]
      omega

end Tau
end Akypuera

import Akypuera.Tau.Handlers
import Akypuera.Lib.Nesting

/-!
# Sequences of callbacks, thread by thread

What the reader promises about its callbacks is a property of each thread by itself: one
`DefThread`, then its events with `EnterState` and `LeaveState` properly nested, then one `EndTrace`
(`Disciplined`). The callbacks of different threads come in any order.

The callbacks of tau2paje drop the thread number, so what they write is right for sequences that
are also `Tame`: no two threads on one node, and five smaller conditions on what the handlers look
up and on the clock.
-/

set_option autoImplicit false

namespace Akypuera
namespace Tau

open CText Search Keys Fifo Nesting

/-- A node and a thread on it. -/
abbrev Thread := UInt32 × UInt32

/-- The thread a callback is about. -/
def Callback.thread : Callback → Option Thread
  | defThread nodeid threadToken _ => some (nodeid, threadToken)
  | endTrace nodeid threadid => some (nodeid, threadid)
  | enterState _ nodeid tid _ => some (nodeid, tid)
  | leaveState _ nodeid tid _ => some (nodeid, tid)
  | eventTrigger _ nodeToken threadToken _ _ => some (nodeToken, threadToken)
  | sendMessage _ sourceNodeToken sourceThreadToken _ _ _ _ _ =>
      some (sourceNodeToken, sourceThreadToken)
  | recvMessage _ _ _ destinationNodeToken destinationThreadToken _ _ _ =>
      some (destinationNodeToken, destinationThreadToken)
  | _ => none

/-- When it happened. -/
def Callback.time : Callback → Option ℚ
  | enterState time _ _ _ | leaveState time _ _ _ | eventTrigger time _ _ _ _ => some time
  | sendMessage time _ _ _ _ _ _ _ | recvMessage time _ _ _ _ _ _ _ => some time
  | _ => none

/-- The state it enters or leaves. -/
def Callback.stateid : Callback → Option UInt32
  | enterState _ _ _ stateid | leaveState _ _ _ stateid => some stateid
  | _ => none

/-- The states of a thread as openings and closings. -/
def Callback.mark : Callback → Option Mark
  | enterState .. => some .opens
  | leaveState .. => some .closes
  | _ => none

/-- The node that a message is sent to. -/
def Callback.peer : Callback → Option UInt32
  | sendMessage _ _ _ destinationNodeToken _ _ _ _ => some destinationNodeToken
  | _ => none

/-- An event of a thread. -/
def Callback.isEvent (c : Callback) : Bool := c.time.isSome

/-- The callbacks of a thread. -/
def ofThread (p : Thread) (cs : List Callback) : List Callback :=
  cs.filter fun c => c.thread = some p

/-- The openings and closings of a thread, by their places in the sequence from `i` on. -/
def marksFrom (p : Thread) (i : Nat) : List Callback → List (Nat × Mark)
  | [] => []
  | c :: cs =>
      (if c.thread = some p then (c.mark.map (i, ·)).toList else []) ++ marksFrom p (i + 1) cs

def marks (p : Thread) (cs : List Callback) : List (Nat × Mark) := marksFrom p 0 cs

/-- The events of a thread, and its `EndTrace`. -/
def framedBody : List Callback → Bool
  | [] => false
  | [c] => match c with
    | .endTrace _ _ => true
    | _ => false
  | c :: cs => c.isEvent && framedBody cs

/-- A `DefThread` before them. -/
def framed : List Callback → Bool
  | .defThread _ _ _ :: cs => framedBody cs
  | _ => false

/-- A closing closes an opening of the same state. -/
def SameState (cs : List Callback) (x : Nat × Option Nat) : Prop :=
  match x.2 with
  | some i => (cs[i]?.bind Callback.stateid) = (cs[x.1]?.bind Callback.stateid)
  | none => False

instance (cs : List Callback) (x : Nat × Option Nat) : Decidable (SameState cs x) := by
  unfold SameState
  split <;> infer_instance

/-- **What the reader promises of a thread.** -/
structure Disciplined (cs : List Callback) (p : Thread) : Prop where
  framed : framed (ofThread p cs) = true
  nested : leftOpen [] (marks p cs) = [] ∧ ∀ x ∈ closings [] (marks p cs), SameState cs x

instance (cs : List Callback) (p : Thread) : Decidable (Disciplined cs p) :=
  decidable_of_iff (framed (ofThread p cs) = true ∧
    (leftOpen [] (marks p cs) = [] ∧ ∀ x ∈ closings [] (marks p cs), SameState cs x))
    ⟨fun h => ⟨h.1, h.2⟩, fun h => ⟨h.framed, h.nested⟩⟩

/-- The threads that occur. -/
def threads (cs : List Callback) : List Thread := cs.filterMap Callback.thread

/-- **What the reader promises**: every thread that occurs is disciplined, and the times are in
    order. -/
structure Threaded (cs : List Callback) : Prop where
  disciplined : ∀ p ∈ threads cs, Disciplined cs p
  ordered : (cs.filterMap Callback.time).Pairwise (· ≤ ·)

-- The instances name `List.decidableBAll`: a thread is also one of finitely many values, and the
-- instance for those would try all of them.
instance (cs : List Callback) : Decidable (Threaded cs) :=
  @decidable_of_iff _ ((∀ p ∈ threads cs, Disciplined cs p) ∧
      (cs.filterMap Callback.time).Pairwise (· ≤ ·))
    ⟨fun h => ⟨h.1, h.2⟩, fun h => ⟨h.disciplined, h.ordered⟩⟩
    (@instDecidableAnd _ _ (List.decidableBAll _ _) inferInstance)

/-! ## What the handlers look up -/

/-- The resolution after some callbacks. -/
def Callback.resolution (r : Resolution) : Callback → Resolution
  | clockPeriod clkPeriod => .ofPeriod clkPeriod
  | _ => r

/-- The times in seconds, each in the resolution in force. -/
def secondsFrom (r : Resolution) : List Callback → List ℚ
  | [] => []
  | c :: cs => (c.time.map (timeToSeconds r)).toList ++ secondsFrom (c.resolution r) cs

/-- What a callback does to the names of states. -/
def Callback.names (args : Arguments) (hash : HTab Str Str) : Callback → HTab Str Str
  | defState stateid statename _ => defineName args hash stateid statename
  | _ => hash

/-- The table of state names after some callbacks. -/
def namesAfter (args : Arguments) (cs : List Callback) : HTab Str Str :=
  cs.foldl (Callback.names args) (HTab.create (some 1009))

/-- The number of nodes after some callbacks: one more than the largest that was defined. -/
def Callback.ranks (n : Nat) : Callback → Nat
  | defThread nodeid _ _ => max n (nodeid.toNat + 1)
  | _ => n

def ranksAfter (cs : List Callback) : Nat := cs.foldl Callback.ranks 0

/-- The calls on the key store. -/
def Callback.op : Callback → Option Op
  | sendMessage _ source _ destination _ _ _ _ => some (.put (messageTriple source destination))
  | recvMessage _ source _ destination _ _ _ _ => some (.get (messageTriple source destination))
  | _ => none

def messageOps (cs : List Callback) : List Op := cs.filterMap Callback.op

/-- Something is written for the state that a callback enters or leaves after the callbacks
    `before`: its name is known, and states are wanted. -/
def shows (args : Arguments) (before : List Callback) (c : Callback) : Bool :=
  match c.stateid with
  | some stateid =>
      !args.noStates && ((namesAfter args before).find (stateKey stateid)).isSome
  | none => false

/-- The same for the callback at place `i`. -/
def shown (args : Arguments) (cs : List Callback) (i : Nat) : Bool :=
  cs[i]?.elim false (shows args (cs.take i))

/-- No two threads are on one node. -/
def Alone (cs : List Callback) : Prop :=
  ∀ p ∈ threads cs, ∀ p' ∈ threads cs, p.1 = p'.1 → p = p'

instance (cs : List Callback) : Decidable (Alone cs) :=
  @List.decidableBAll _ _ (fun _ => List.decidableBAll _ _) _

/-- A closing and what it closes are both written, or neither is. -/
def ShownAlike (args : Arguments) (cs : List Callback) (x : Nat × Option Nat) : Prop :=
  ∀ i ∈ x.2, shown args cs i = shown args cs x.1

instance (args : Arguments) (cs : List Callback) (x : Nat × Option Nat) :
    Decidable (ShownAlike args cs x) :=
  inferInstanceAs (Decidable (∀ i ∈ x.2, shown args cs i = shown args cs x.1))

/-- The node that each message is sent to has an entry in `rank_last_time` by then. (The source of a
    message that is received and finds its key has one, since it was sent.) -/
def PeersKnown (cs : List Callback) : Prop :=
  ∀ i : Fin cs.length, ∀ n ∈ (cs.get i).peer, n.toNat < ranksAfter (cs.take i)

instance (cs : List Callback) : Decidable (PeersKnown cs) :=
  @Nat.decidableForallFin _ _ fun _ => Option.decidableForallMem _

/-- A state is not defined between its `EnterState` and its `LeaveState`. -/
def NamesSettled (args : Arguments) (cs : List Callback) : Prop :=
  ∀ p ∈ threads cs, ∀ x ∈ closings [] (marks p cs), ShownAlike args cs x

instance (args : Arguments) (cs : List Callback) : Decidable (NamesSettled args cs) :=
  @List.decidableBAll _ _ (fun _ => List.decidableBAll _ _) _

/-- Where the callbacks of tau2paje get a sequence right. -/
structure Tame (args : Arguments) (resolution : ℚ) (cs : List Callback) : Prop where
  /-- Something is written at all. -/
  output : args.dummy = false
  /-- **No two threads are on one node.** -/
  alone : Alone cs
  names : NamesSettled args cs
  /-- In seconds, the times are not negative and stay in order. -/
  ordered : (0 :: secondsFrom (.finite resolution) cs).Pairwise (· ≤ ·)
  /-- The numbers of nodes fit into an `int`. -/
  nodes : ranksAfter cs < 2 ^ 31
  peers : args.noLinks = true ∨ PeersKnown cs
  /-- No receive misses its key, or it may. -/
  answered : args.noLinks = true ∨ args.ignoreErrors = true ∨
    Enough (admitted (some 1009) [] ((messageOps cs).map Op.req))

instance (args : Arguments) (resolution : ℚ) (cs : List Callback) :
    Decidable (Tame args resolution cs) :=
  decidable_of_iff (args.dummy = false ∧ Alone cs ∧ NamesSettled args cs ∧
    (0 :: secondsFrom (.finite resolution) cs).Pairwise (· ≤ ·) ∧ ranksAfter cs < 2 ^ 31 ∧
    (args.noLinks = true ∨ PeersKnown cs) ∧
    (args.noLinks = true ∨ args.ignoreErrors = true ∨
      Enough (admitted (some 1009) [] ((messageOps cs).map Op.req))))
    ⟨fun ⟨h₁, h₂, h₃, h₄, h₅, h₆, h₇⟩ => ⟨h₁, h₂, h₃, h₄, h₅, h₆, h₇⟩,
      fun ⟨h₁, h₂, h₃, h₄, h₅, h₆, h₇⟩ => ⟨h₁, h₂, h₃, h₄, h₅, h₆, h₇⟩⟩

end Tau
end Akypuera

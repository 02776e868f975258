import Akypuera.Tau.Indices
import Akypuera.Tau.Overflow

/-!
# Accounting for receives

With `ignore_errors`, a receive that finds no key is counted and otherwise dropped: the key store
answers an empty queue without changing it, and neither clock moves (`recvMessage_lost`). So **every
receive is either an `EndLink` or one that is counted**, and as long as the table of the key store
has room for all pairs of nodes and its counts do not overflow, the keys of a pair's `EndLink`s are
the first of those of its `StartLink`s, in order (`receives_accounted`).
-/

set_option autoImplicit false

namespace Akypuera
namespace Tau

open CText Search Keys Fifo

/-- Errors are ignored, and links are written. -/
structure Tolerant (args : Arguments) : Prop where
  ignore : args.ignoreErrors = true
  links : args.noLinks = false
  output : args.dummy = false

/-! ## Links -/

/-- The key of a `StartLink`. -/
def Paje.startKey : Paje → Option Str
  | startLink _ _ _ _ _ key _ _ => some key
  | _ => none

/-- The key of an `EndLink`. -/
def Paje.endKey : Paje → Option Str
  | endLink _ _ _ _ _ key => some key
  | _ => none

/-- The keys of the `StartLink`s of the messages from one node to another. -/
def started (source destination : UInt32) (rounds : List (Callback × List Paje)) : List Str :=
  rounds.flatMap fun x =>
    if x.1.op = some (.put (messageTriple source destination)) then x.2.filterMap Paje.startKey
    else []

/-- Those of their `EndLink`s. -/
def ended (source destination : UInt32) (rounds : List (Callback × List Paje)) : List Str :=
  rounds.flatMap fun x =>
    if x.1.op = some (.get (messageTriple source destination)) then x.2.filterMap Paje.endKey
    else []

/-- A link is written for a message, and at the message's node. -/
def Placed (c : Callback) : Paje → Prop
  | .startLink _ _ _ source _ _ _ _ =>
      ∃ s d, c.op = some (.put (messageTriple s d)) ∧ source = mpiProcess s
  | .endLink _ _ _ dest _ _ =>
      ∃ s d, c.op = some (.get (messageTriple s d)) ∧ dest = mpiProcess d
  | _ => True

/-- A receive. -/
def Callback.receives : Callback → Bool
  | recvMessage .. => true
  | _ => false

def RunOf.receives {σ : Type} (r : RunOf σ) : Nat := r.callbacks.countP Callback.receives

/-- The nodes at the ends of a message. -/
def Callback.ends : Callback → List UInt32
  | sendMessage _ source _ destination _ _ _ _ | recvMessage _ source _ destination _ _ _ _ =>
      [source, destination]
  | _ => []

/-- Messages are between nodes that are defined. -/
def Between (cs : List Callback) : Prop :=
  ∀ before c after, cs = before ++ c :: after → ∀ n ∈ c.ends, Defined n before

instance (cs : List Callback) : Decidable (Between cs) :=
  @decidable_of_iff _ _ (Firsts.forall_split_iff cs).symm
    (@Nat.decidableForallFin _ _ fun _ => List.decidableBAll _ _)

/-- The pairs of nodes between which messages are sent. -/
def sentPairs (cs : List Callback) : List Triple := putKeys ((messageOps cs).map Op.req)

/-- Fewer than `2 ^ 31` keys ever wait between two nodes. -/
def FewWaiting (cs : List Callback) : Prop :=
  Within (2 ^ 31) (fun _ => 0) ((messageOps cs).map Op.req)

instance (cs : List Callback) : Decidable (FewWaiting cs) := inferInstanceAs (Decidable (Within _ _ _))

/-- **Every receive is accounted for** by what a run of callbacks writes and counts. -/
structure Accounted {σ : Type} (cs : List Callback) (r : RunOf σ) : Prop where
  /-- No message ends the process. -/
  made : ∀ c ∈ cs[r.rounds.length]?, c.op = none
  placed : ∀ x ∈ r.rounds, ∀ p ∈ x.2, Placed x.1 p
  fifo : ∀ source destination, ended source destination r.rounds <+:
    started source destination r.rounds
  /-- A key tells which `StartLink` it is from, until the counter comes round. -/
  distinct : (sentPairs cs).length ≤ 2 ^ 64 → (r.trace.filterMap Paje.startKey).Nodup
  counted : r.receives =
    (r.trace.filterMap Paje.endKey).length + r.state.totalNumberOfLinksNotTranslated

/-- Runs that write and count the same. -/
theorem Accounted.congr {σ τ : Type} {cs : List Callback} {r : RunOf σ} {r' : RunOf τ}
    (h : Accounted cs r') (hrounds : r.rounds = r'.rounds)
    (hlost : r.state.totalNumberOfLinksNotTranslated = r'.state.totalNumberOfLinksNotTranslated) :
    Accounted cs r := by
  have htrace : r.trace = r'.trace := congrArg (List.flatMap Prod.snd) hrounds
  have hreceives : r.receives = r'.receives := by
    rw [RunOf.receives, RunOf.receives, RunOf.callbacks, RunOf.callbacks, hrounds]
  refine ⟨?_, ?_, ?_, ?_, ?_⟩
  · rw [hrounds]
    exact h.made
  · rw [hrounds]
    exact h.placed
  · rw [hrounds]
    exact h.fifo
  · rw [htrace]
    exact h.distinct
  · rw [hreceives, htrace, hlost]
    exact h.counted

/-! ## One callback -/

variable {args : Arguments} {st : State} {c : Callback} {done : Done}

/-- **A receive that finds no key** is counted, and nothing else changes. -/
theorem recvMessage_lost (htolerant : Tolerant args) {s : StateOf IntKeys} (h : Mirrored s st)
    (time : ℚ) {source destination : UInt32} (hkey : s.hasKey source destination = false) :
    recvMessage args s time source destination =
      .ok { state := { s with
              totalNumberOfLinksNotTranslated := s.totalNumberOfLinksNotTranslated + 1 }
            outs := [], result := 0 } := by
  have hnull : (LinkKeys.call s.keys (.get (messageTriple source destination))).2.nonNull = false :=
    hkey
  rw [recvMessage_written htolerant.links]
  dsimp only
  rw [if_neg (by simp [hnull]), if_pos htolerant.ignore, h.keys.get_of_null hnull]

/-- **The keys of the links are the answers of the key store.** -/
theorem Effect.linkKeys (h : Effect args st c done) (htolerant : Tolerant args) :
    done.state.keys = st.keys.final c.op.toList ∧
      done.outs.filterMap Paje.startKey = allPushed (st.keys.log c.op.toList) ∧
      done.outs.filterMap Paje.endKey = allTaken (st.keys.log c.op.toList) := by
  have hwritten : ∀ p : Paje, (if args.dummy then [] else [p]) = [p] := fun p =>
    if_neg (by simp [htolerant.output])
  cases h with
  | clockPeriod | endTraceDummy | endTrace | defStateGroup | defUserEvent | defState
  | eventTrigger => exact ⟨rfl, rfl, rfl⟩
  | defThread hlt =>
    refine ⟨rfl, ?_⟩
    rw [hwritten]
    exact ⟨rfl, rfl⟩
  | unknown hstate hfind =>
    cases c with
    | enterState | leaveState => exact ⟨rfl, rfl, rfl⟩
    | _ => cases hstate
  | enterState hfind hlt | leaveState hfind hlt =>
    refine ⟨rfl, ?_⟩
    split <;> exact ⟨rfl, rfl⟩
  | noLinks hop hno => exact absurd (htolerant.links.symm.trans hno) nofun
  | sendMessage hlinks hs hd =>
    refine ⟨rfl, ?_⟩
    rw [hwritten]
    exact ⟨rfl, rfl⟩
  | @recvMessage _ source _ destination _ _ _ _ hlinks hkey hs hd =>
    refine ⟨rfl, ?_⟩
    have hlog : st.keys.log [.get (messageTriple source destination)] =
        [.pop (messageTriple source destination)
          (some (cstr (st.keys.call (.get (messageTriple source destination))).2.key))] := by
      rw [KeyStore.log, Op.entry, Answer.text, if_pos hkey]
      rfl
    rw [hwritten]
    show _ = allPushed (st.keys.log [.get _]) ∧ _ = allTaken (st.keys.log [.get _])
    rw [hlog]
    exact ⟨rfl, rfl⟩
  | @recvMissed _ source _ destination _ _ _ _ hlinks hkey hignore =>
    refine ⟨rfl, ?_⟩
    have hlog : st.keys.log [.get (messageTriple source destination)] =
        [.pop (messageTriple source destination) none] := by
      rw [KeyStore.log, Op.entry, Answer.text, if_neg (by simp [hkey])]
      rfl
    show _ = allPushed (st.keys.log [.get _]) ∧ _ = allTaken (st.keys.log [.get _])
    rw [hlog]
    exact ⟨rfl, rfl⟩

theorem Effect.placed (h : Effect args st c done) : ∀ p ∈ done.outs, Placed c p := by
  intro p hp
  cases h.writes p hp with
  | start | stop => exact ⟨_, _, rfl, rfl⟩
  | _ => trivial

/-- **A receive ends a link or is counted.** -/
theorem Effect.counted (h : Effect args st c done) (htolerant : Tolerant args) :
    (done.outs.filterMap Paje.endKey).length + done.state.totalNumberOfLinksNotTranslated =
      st.totalNumberOfLinksNotTranslated + if c.receives then 1 else 0 := by
  have hwritten : ∀ p : Paje, (if args.dummy then [] else [p]) = [p] := fun p =>
    if_neg (by simp [htolerant.output])
  have hnone : ([] : List Str).length + st.totalNumberOfLinksNotTranslated =
      st.totalNumberOfLinksNotTranslated + 0 := Nat.zero_add _
  cases h with
  | clockPeriod | endTraceDummy | endTrace | defStateGroup | defUserEvent | defState
  | eventTrigger => exact hnone
  | defThread =>
    rw [hwritten]
    exact hnone
  | unknown hstate hfind =>
    cases c with
    | enterState | leaveState => exact hnone
    | _ => cases hstate
  | enterState | leaveState => split <;> exact hnone
  | noLinks hop hno => exact absurd (htolerant.links.symm.trans hno) nofun
  | sendMessage =>
    rw [hwritten]
    exact hnone
  | recvMessage =>
    rw [hwritten]
    exact Nat.add_comm 1 _
  | recvMissed => exact Nat.zero_add _

/-! ## Runs -/

theorem pushed_single (ks : KeyStore) (t : Triple) (op : Option Op) :
    Fifo.pushed t (ks.log op.toList) =
      if op = some (.put t) then allPushed (ks.log op.toList) else [] := by
  cases op with
  | none => rfl
  | some op =>
    cases op with
    | put t' =>
      by_cases heq : t' = t
      · subst heq
        rw [if_pos rfl]
        simp [KeyStore.log, Op.entry, Fifo.pushed, allPushed]
      · rw [if_neg (by simpa using heq)]
        simp [KeyStore.log, Op.entry, Fifo.pushed, heq]
    | get t' => rfl

theorem taken_single (ks : KeyStore) (t : Triple) (op : Option Op) :
    Fifo.taken t (ks.log op.toList) =
      if op = some (.get t) then allTaken (ks.log op.toList) else [] := by
  cases op with
  | none => rfl
  | some op =>
    cases op with
    | put t' => rfl
    | get t' =>
      by_cases heq : t' = t
      · subst heq
        rw [if_pos rfl]
        cases hans : (ks.call (.get t')).2.text <;>
          simp [KeyStore.log, Op.entry, hans, Fifo.taken, answers, allTaken, List.reduceOption]
      · rw [if_neg (by simpa using heq)]
        simp [KeyStore.log, Op.entry, Fifo.taken, answers, heq]

/-- **The keys of the links of a run** are those of the key store's log. -/
structure Logged (ks : KeyStore) (r : Run) : Prop where
  started : ∀ source destination, started source destination r.rounds =
    Fifo.pushed (messageTriple source destination) (ks.log (messageOps r.callbacks))
  ended : ∀ source destination, ended source destination r.rounds =
    Fifo.taken (messageTriple source destination) (ks.log (messageOps r.callbacks))
  keys : r.trace.filterMap Paje.startKey = allPushed (ks.log (messageOps r.callbacks))

theorem Logged.cons {ks : KeyStore} {outs : List Paje} {r : Run}
    (hstart : outs.filterMap Paje.startKey = allPushed (ks.log c.op.toList))
    (hend : outs.filterMap Paje.endKey = allTaken (ks.log c.op.toList))
    (h : Logged (ks.final c.op.toList) r) :
    Logged ks { r with rounds := (c, outs) :: r.rounds } := by
  have hops : messageOps (RunOf.callbacks { r with rounds := (c, outs) :: r.rounds }) =
      c.op.toList ++ messageOps r.callbacks := by
    cases hop : c.op <;> simp [RunOf.callbacks, messageOps, hop]
  refine ⟨?_, ?_, ?_⟩
  · intro source destination
    rw [hops, KeyStore.log_append, pushed_append, pushed_single, ← hstart, ← h.started]
    exact List.flatMap_cons
  · intro source destination
    rw [hops, KeyStore.log_append, taken_append, taken_single, ← hend, ← h.ended]
    exact List.flatMap_cons
  · rw [hops, KeyStore.log_append, allPushed_append, ← hstart, ← h.keys, ← List.filterMap_append]
    rfl

theorem run_logged (htolerant : Tolerant args) (st : State) (cs : List Callback) :
    Logged st.keys (run args st cs) := by
  induction cs generalizing st with
  | nil => exact ⟨fun _ _ => rfl, fun _ _ => rfl, rfl⟩
  | cons c cs ih =>
    cases hcall : c.call args st with
    | error stop =>
      rw [run_error hcall]
      exact ⟨fun _ _ => rfl, fun _ _ => rfl, rfl⟩
    | ok done =>
      obtain ⟨hkeys, hstart, hend⟩ := (call_iff_effect.mp hcall).linkKeys htolerant
      rw [run_ok hcall]
      exact .cons hstart hend (hkeys ▸ ih done.state)

theorem run_counted (htolerant : Tolerant args) (st : State) (cs : List Callback) :
    ((run args st cs).trace.filterMap Paje.endKey).length +
        (run args st cs).state.totalNumberOfLinksNotTranslated =
      st.totalNumberOfLinksNotTranslated + (run args st cs).receives := by
  induction cs generalizing st with
  | nil => exact Nat.zero_add _
  | cons c cs ih =>
    cases hcall : c.call args st with
    | error stop =>
      rw [run_error hcall]
      exact Nat.zero_add _
    | ok done =>
      have hone := (call_iff_effect.mp hcall).counted htolerant
      have hrest := ih done.state
      have htrace : (run args st (c :: cs)).trace = done.outs ++ (run args done.state cs).trace := by
        rw [run_ok hcall]
        rfl
      have hreceives : (run args st (c :: cs)).receives =
          (run args done.state cs).receives + if c.receives then 1 else 0 := by
        rw [run_ok hcall, RunOf.receives, RunOf.callbacks, List.map_cons, List.countP_cons]
        rfl
      have hstate : (run args st (c :: cs)).state = (run args done.state cs).state := by
        rw [run_ok hcall]
      rw [htrace, hreceives, hstate, List.filterMap_append, List.length_append]
      omega

/-- **No message ends the process.** -/
theorem Known.made {before : List Callback} (h : Known args before st) (htolerant : Tolerant args)
    {cs : List Callback} (hbetween : Between (before ++ cs)) :
    ∀ c ∈ cs[(run args st cs).rounds.length]?, c.op = none := by
  induction cs generalizing before st with
  | nil => exact nofun
  | cons c cs ih =>
    have hends := hbetween before c cs rfl
    cases hcall : c.call args st with
    | ok done =>
      rw [← List.singleton_append, ← List.append_assoc] at hbetween
      rw [run_cons_ok hcall]
      exact ih ((call_iff_effect.mp hcall).knows h) hbetween
    | error stop =>
      rw [run_cons_error hcall]
      intro c' hc'
      cases hc'
      have hfails : ∀ done, ¬ Effect args st c done := fun done heff =>
        absurd ((call_iff_effect.mpr heff).symm.trans hcall) nofun
      have hroom : ∀ n ∈ c.ends, n.toNat < st.rankLastTime.length := fun n hn =>
        h.lt_length (hends n hn).lt_ranksAfter
      cases c with
      | sendMessage time source sourceThread destination destinationThread size tag comm =>
        exact absurd (.sendMessage htolerant.links (hroom source (by simp [Callback.ends]))
          (hroom destination (by simp [Callback.ends]))) (hfails _)
      | recvMessage time source sourceThread destination destinationThread size tag comm =>
        cases hkey : st.hasKey source destination with
        | true =>
          exact absurd (.recvMessage htolerant.links hkey (hroom source (by simp [Callback.ends]))
            (hroom destination (by simp [Callback.ends]))) (hfails _)
        | false => exact absurd (.recvMissed htolerant.links hkey htolerant.ignore) (hfails _)
      | _ => rfl

theorem Between.mono {before cs : List Callback} (h : Between cs) (hfirst : before <+: cs) :
    Between before := by
  obtain ⟨rest, rfl⟩ := hfirst
  intro pre c post heq
  exact h pre c (post ++ rest) (by rw [heq, List.append_assoc, List.cons_append])

theorem Between.snoc {cs : List Callback} {c : Callback} (h : Between cs)
    (hends : ∀ n ∈ c.ends, Defined n cs) : Between (cs ++ [c]) := by
  intro pre c' post heq
  rcases List.eq_nil_or_concat post with rfl | ⟨post, x, rfl⟩
  · obtain ⟨rfl, rfl⟩ := List.append_singleton_inj.mp heq
    exact hends
  · rw [List.concat_eq_append, ← List.cons_append, ← List.append_assoc] at heq
    exact h pre c' post (List.append_singleton_inj.mp heq).1

theorem sentPairs_mono {before cs : List Callback} (hfirst : before <+: cs) :
    sentPairs before <+: sentPairs cs := by
  obtain ⟨rest, rfl⟩ := hfirst
  refine ⟨sentPairs rest, ?_⟩
  rw [sentPairs, sentPairs, sentPairs, messageOps, messageOps, messageOps, List.filterMap_append,
    List.map_append, putKeys_append]

theorem card_sentPairs_mono {before cs : List Callback} (hfirst : before <+: cs) :
    (sentPairs before).toFinset.card ≤ (sentPairs cs).toFinset.card := by
  have hsub := (sentPairs_mono hfirst).subset
  exact Finset.card_le_card fun t ht => List.mem_toFinset.mpr (hsub (List.mem_toFinset.mp ht))

/-- With room for all pairs, the log is one of FIFO queues. -/
theorem run_log (resolution : ℚ) {cs : List Callback}
    (hroom : (sentPairs cs).toFinset.card ≤ 1009) (args : Arguments) :
    let made := (run args (State.init resolution) cs).callbacks
    Serves Queues.empty ((State.init resolution).keys.log (messageOps made)) ∧
      allPushed ((State.init resolution).keys.log (messageOps made)) =
        (stampsFrom 0 (sentPairs made)).map stampKey := by
  intro made
  have hcard := (card_sentPairs_mono (callbacks_made args (State.init resolution) cs)).trans hroom
  rw [State.init, StateOf.init, hcreateSize_akyKeyTableSize]
  exact log_of_admitted (fun op hop => fits_messageOps hop)
    ((admitted_eq_self_iff 1009 _).mpr hcard)

theorem accounted (htolerant : Tolerant args) (resolution : ℚ) {cs : List Callback}
    (hbetween : Between cs) (hroom : (sentPairs cs).toFinset.card ≤ 1009) :
    Accounted cs (run args (State.init resolution) cs) := by
  have hlogged := run_logged htolerant (State.init resolution) cs
  obtain ⟨hserves, hstamps⟩ := run_log resolution hroom args
  refine ⟨(Known.init resolution).made htolerant hbetween, ?_, fun source destination => ?_,
    fun hsent => ?_, ?_⟩
  · intro x hx
    obtain ⟨st, done, hcall, houts⟩ := exists_call hx
    rw [houts]
    exact (call_iff_effect.mp hcall).placed
  · rw [hlogged.started, hlogged.ended]
    exact hserves.taken_first _
  · rw [hlogged.keys, hstamps, List.nodup_map_iff stampKey_injective]
    have hfirst := sentPairs_mono (callbacks_made args (State.init resolution) cs)
    exact nodup_stampsFrom 0 (hfirst.length_le.trans hsent)
  · have hcounted := run_counted htolerant (State.init resolution) cs
    rw [hcounted]
    exact (Nat.zero_add _).symm

/-! ## Counts of type `int` -/

theorem FewWaiting.mono {before cs : List Callback} (h : FewWaiting cs) (hfirst : before <+: cs) :
    FewWaiting before := by
  obtain ⟨rest, rfl⟩ := hfirst
  rw [FewWaiting, messageOps, List.filterMap_append, List.map_append] at h
  exact h.of_append

theorem calls_eq {σ : Type} (hlinks : args.noLinks = false) (r : RunOf σ) :
    r.calls args = messageOps r.callbacks := by
  rw [RunOf.calls, messageOps, List.filterMap_eq_flatMap_toList]
  exact List.flatMap_congr fun c _ => by rw [callsOf, hlinks]; rfl

/-- An `int` overflows where a callback that is made fills a queue up. -/
theorem runInt_defined_iff (htolerant : Tolerant args) (resolution : ℚ) {cs : List Callback}
    (hroom : (sentPairs cs).toFinset.card ≤ 1009) :
    (runInt args resolution cs).Defined ↔
      FewWaiting (run args (State.init resolution) cs).callbacks := by
  have hcard := (card_sentPairs_mono (callbacks_made args (State.init resolution) cs)).trans hroom
  have hkeys : (State.init resolution).keys = KeyStore.init (some 1009) := by
    rw [State.init, StateOf.init, hcreateSize_akyKeyTableSize]
    rfl
  rw [runInt_defined, calls_eq htolerant.links, FewWaiting, hkeys,
    KeyStore.few_init_iff (some 1009) fun op hop => fits_messageOps hop]
  exact iff_of_eq (congrArg _ ((admitted_eq_self_iff 1009 _).mpr hcard))

/-- **tau2paje accounts for every receive** as long as fewer than `2 ^ 31` keys wait between any two
    nodes, and a run that is not ended overflows otherwise. After any callbacks, each `EndLink`
    carries the key of the `StartLink` whose turn it is between its two nodes, and the receives are
    the `EndLink`s and those that are counted. A receive that finds no key changes nothing but the
    count. -/
theorem receives_accounted (htolerant : Tolerant args) (resolution : ℚ) {cs : List Callback}
    (hbetween : Between cs) (hroom : (sentPairs cs).toFinset.card ≤ 1009) :
    (FewWaiting cs → ∀ before, before <+: cs →
      (runInt args resolution before).Defined ∧
      Accounted before (runInt args resolution before) ∧
      ∀ time source destination,
        (runInt args resolution before).state.hasKey source destination = false →
        recvMessage args (runInt args resolution before).state time source destination =
          .ok { state := { (runInt args resolution before).state with
                  totalNumberOfLinksNotTranslated :=
                    (runInt args resolution before).state.totalNumberOfLinksNotTranslated + 1 }
                outs := [], result := 0 }) ∧
    ((runInt args resolution cs).Defined → (runInt args resolution cs).stop = none →
      FewWaiting cs) := by
  refine ⟨fun hfew before hfirst => ?_, fun hdefined hstop => ?_⟩
  · have hcard := (card_sentPairs_mono hfirst).trans hroom
    have hdefined : (runInt args resolution before).Defined :=
      (runInt_defined_iff htolerant resolution hcard).mpr
        (hfew.mono ((callbacks_made args _ before).trans hfirst))
    obtain ⟨hrounds, -, hstate⟩ := runInt_same hdefined
    refine ⟨hdefined, ?_, fun time source destination => recvMessage_lost htolerant hstate time⟩
    refine (accounted htolerant resolution (hbetween.mono hfirst) hcard).congr hrounds ?_
    rw [← hstate.data]
    rfl
  · obtain ⟨-, hsame, -⟩ := runInt_same hdefined
    rw [← callbacks_of_stop (hsame.symm.trans hstop)]
    exact (runInt_defined_iff htolerant resolution hroom).mp hdefined

/-- With `--ignore-errors` alone. -/
def tolerating : Arguments := { plainly with ignoreErrors := true }

/-- Two messages, and a receive too many. -/
def receivedThrice : List Callback :=
  [.defThread 0 0 "a".toList, .defThread 1 0 "b".toList, .sendMessage 1 0 0 1 0 8 1 0,
    .sendMessage 2 0 0 1 0 8 2 0, .recvMessage 3 0 0 1 0 8 1 0, .recvMessage 4 0 0 1 0 8 2 0,
    .recvMessage 5 0 0 1 0 8 3 0]

theorem receives_accounted_thrice :
    (runInt tolerating 1 receivedThrice).Defined ∧
      Accounted receivedThrice (runInt tolerating 1 receivedThrice) := by
  have htolerant : Tolerant tolerating := ⟨rfl, rfl, rfl⟩
  have h := (receives_accounted htolerant 1 (by decide +kernel) (by decide +kernel)).1
    (by decide +kernel) receivedThrice List.prefix_rfl
  exact ⟨h.1, h.2.1⟩

/-- Two nodes, and `j` messages from one to the other that are not received. -/
def manySends (j : Nat) : List Callback :=
  [.defThread 0 0 "a".toList, .defThread 1 0 "b".toList] ++
    List.replicate j (.sendMessage 1 0 0 1 0 8 1 0)

theorem messageOps_manySends (j : Nat) :
    messageOps (manySends j) = List.replicate j (.put (messageTriple 0 1)) := by
  have hop : Callback.op (.sendMessage 1 0 0 1 0 8 1 0) = some (.put (messageTriple 0 1)) := rfl
  rw [messageOps, manySends, List.filterMap_append, List.filterMap_replicate_of_some hop]
  rfl

theorem manySends_between (j : Nat) : Between (manySends j) := by
  induction j with
  | zero => decide
  | succ j ih =>
    rw [manySends, List.replicate_succ', ← List.append_assoc, ← manySends]
    refine ih.snoc fun n hn => ?_
    have hnode : n = 0 ∨ n = 1 := by simpa [Callback.ends] using hn
    rcases hnode with rfl | rfl
    · exact ⟨0, "a".toList, by simp [manySends]⟩
    · exact ⟨0, "b".toList, by simp [manySends]⟩

theorem manySends_room (j : Nat) : (sentPairs (manySends j)).toFinset.card ≤ 1009 := by
  have hone : (sentPairs (manySends j)).toFinset ⊆ {messageTriple 0 1} := by
    intro t ht
    rw [List.mem_toFinset, sentPairs, mem_putKeys, messageOps_manySends, List.map_replicate] at ht
    cases (List.mem_replicate.mp ht).2
    exact Finset.mem_singleton_self _
  exact (Finset.card_le_card hone).trans (by simp)

/-- All of them are sent. -/
theorem manySends_made (j : Nat) :
    (run tolerating (State.init 1) (manySends j)).callbacks = manySends j := by
  have htolerant : Tolerant tolerating := ⟨rfl, rfl, rfl⟩
  have hmade := (accounted htolerant 1 (manySends_between j) (manySends_room j)).made
  have hfirst := callbacks_made tolerating (State.init 1) (manySends j)
  refine hfirst.eq_of_length_le (Nat.le_of_not_lt fun hlt => ?_)
  rw [RunOf.callbacks, List.length_map] at hlt
  -- the nodes are defined, so that it is a message that was not made
  obtain ⟨rounds, hrounds⟩ : ∃ rounds, (run tolerating (State.init 1) (manySends j)).rounds =
      _ :: _ :: rounds := ⟨_, rfl⟩
  rw [hrounds, List.length_cons, List.length_cons] at hmade hlt
  have hsend : (manySends j)[rounds.length + 1 + 1]? = some (.sendMessage 1 0 0 1 0 8 1 0) := by
    have hroom : rounds.length < j := by simpa [manySends] using hlt
    rw [manySends, List.cons_append, List.cons_append, List.getElem?_cons_succ,
      List.getElem?_cons_succ, List.nil_append, List.getElem?_replicate, if_pos hroom]
  exact absurd (hmade _ hsend) (by simp [Callback.op])

theorem manySends_undefined {j : Nat} (hj : 2 ^ 31 ≤ j) :
    ¬ (runInt tolerating 1 (manySends j)).Defined := by
  have htolerant : Tolerant tolerating := ⟨rfl, rfl, rfl⟩
  obtain ⟨i, rfl⟩ : ∃ i, j = i + 1 := ⟨j - 1, by omega⟩
  rw [runInt_defined_iff htolerant 1 (manySends_room _), manySends_made, FewWaiting,
    messageOps_manySends, List.map_replicate]
  intro hwithin
  have hlt := hwithin.replicate
  omega

/-- `2 ^ 31` messages that are not received: the keys of the links are undefined. -/
theorem manySends_not_accounted :
    Between (manySends (2 ^ 31)) ∧ (sentPairs (manySends (2 ^ 31))).toFinset.card ≤ 1009 ∧
      ¬ (runInt tolerating 1 (manySends (2 ^ 31))).Defined :=
  ⟨manySends_between _, manySends_room _, manySends_undefined (Nat.le_refl _)⟩

end Tau
end Akypuera

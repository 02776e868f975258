import Akypuera.Converter.Reached
import Akypuera.Keys.Overflow

/-!
# The converter on the store of the repository

The loop once more, on the store whose counts are of type `int`. With either store it makes the same
calls (`Mirrors`), and it is the same loop: **it writes the same, event by event, as long as fewer
than `2 ^ 31` keys wait in every queue** (`convertOn_same`), and where they do not, an `int`
overflows (`convertOn_defined`).
-/

set_option autoImplicit false

namespace Akypuera
namespace Converter

open CText Code Keys Fifo

/-- The same state, with either store. -/
structure Mirrored (s : StateOf IntKeys) (st : State) : Prop where
  keys : Keeps s.keys st.keys
  fail : s.fail = st.fail
  rootCreated : s.rootCreated = st.rootCreated
  timestamp : s.timestamp = st.timestamp

/-- A piece of the loop that makes the calls `ops`, with either store: it does the same unless a call
    fills its queue up, and what is not defined stays so. -/
structure Mirrors (ops : List Op) (s : StateOf IntKeys) (st : State)
    (res : StateOf IntKeys × List Out) (res' : State × List Out) : Prop where
  keys : res'.1.keys = st.keys.final ops
  same : Mirrored s st → st.keys.Few ops → Mirrored res.1 res'.1 ∧ res.2 = res'.2
  lost : Mirrored s st → ¬ st.keys.Few ops → res.1.keys = none
  undefined : s.keys = none → res.1.keys = none

variable {args : Arguments} {e : Event} {func : Str} {s : StateOf IntKeys} {st : State}

theorem Mirrors.nil (s : StateOf IntKeys) (st : State) : Mirrors [] s st (s, []) (st, []) :=
  ⟨rfl, fun h _ => ⟨h, rfl⟩, fun _ hno => absurd trivial hno, fun h => h⟩

theorem Mirrors.append {ops ops' : List Op} {r q : StateOf IntKeys × List Out}
    {r' q' : State × List Out} (h : Mirrors ops s st r r') (h' : Mirrors ops' r.1 r'.1 q q') :
    Mirrors (ops ++ ops') s st (q.1, r.2 ++ q.2) (q'.1, r'.2 ++ q'.2) where
  keys := by rw [h'.keys, h.keys, KeyStore.final_append]
  same hs hfew := by
    rw [KeyStore.few_append, ← h.keys] at hfew
    obtain ⟨hr, houts⟩ := h.same hs hfew.1
    obtain ⟨hq, houts'⟩ := h'.same hr hfew.2
    exact ⟨hq, by rw [houts, houts']⟩
  lost hs hmany := by
    by_cases hfew : st.keys.Few ops
    · refine h'.lost (h.same hs hfew).1 fun hfew' => hmany ?_
      rw [KeyStore.few_append, ← h.keys]
      exact ⟨hfew, hfew'⟩
    · exact h'.undefined (h.lost hs hfew)
  undefined hs := h'.undefined (h.undefined hs)

theorem putKey_mirrors (s : StateOf IntKeys) (st : State) (f : Family) (dst : UInt32) :
    Mirrors [reqOp (.put (f, e.id1, dst.toUInt64))] s st (putKey s e f dst.toInt32)
      (putKey st e f dst.toInt32) := by
  have hop : reqOp (.put (f, e.id1, dst.toUInt64)) = .put (f.keyc, toInt e.id1, dst.toInt32) := by
    simp [reqOp, Link.triple, toInt_toUInt64]
  rw [hop]
  refine ⟨rfl, fun h hfew => ?_, fun h hmany => ?_, fun h => ?_⟩
  · obtain ⟨hans, hkeys⟩ := h.keys.call ((KeyStore.few_single _ _).mp hfew)
    refine ⟨⟨hkeys, h.fail, h.rootCreated, h.timestamp⟩, ?_⟩
    simp [putKey, hans]
  · exact h.keys.overflow fun hshort => hmany ((KeyStore.few_single _ _).mpr hshort)
  · simp [putKey, h]

theorem getKey_mirrors (s : StateOf IntKeys) (st : State) (f : Family) (src : UInt32) :
    Mirrors [reqOp (.take (f, src.toUInt64, e.id1))] s st (getKey args s e func f src.toInt32)
      (getKey args st e func f src.toInt32) := by
  have hop : reqOp (.take (f, src.toUInt64, e.id1)) = .get (f.keyc, src.toInt32, toInt e.id1) := by
    simp [reqOp, Link.triple, toInt_toUInt64]
  have hkeys : ∀ (σ : Type) [LinkKeys σ] (s : StateOf σ),
      (getKey args s e func f src.toInt32).1.keys =
        (LinkKeys.call s.keys (.get (f.keyc, src.toInt32, toInt e.id1))).1 := by
    intro σ _ s
    unfold getKey
    dsimp only
    split <;> rfl
  rw [hop]
  refine ⟨hkeys _ st, fun h hfew => ?_, fun h hmany => ?_, fun h => ?_⟩
  · obtain ⟨hans, hks⟩ := h.keys.call ((KeyStore.few_single _ _).mp hfew)
    unfold getKey
    simp only [hans, linkKeys_call]
    split
    · exact ⟨⟨hks, h.fail, h.rootCreated, h.timestamp⟩, rfl⟩
    · exact ⟨⟨hks, by simp [h.fail], h.rootCreated, h.timestamp⟩, rfl⟩
  · rw [hkeys]
    exact h.keys.overflow fun hshort => hmany ((KeyStore.few_single _ _).mpr hshort)
  · rw [hkeys, h, call_none]

/-- A loop over some ranks. -/
theorem forRanks_mirrors {body : StateOf IntKeys → UInt32 → StateOf IntKeys × List Out}
    {body' : State → UInt32 → State × List Out} {ops : UInt32 → List Op}
    (hbody : ∀ s st rank, Mirrors (ops rank) s st (body s rank) (body' st rank))
    (s : StateOf IntKeys) (st : State) (ranks : List UInt32) :
    Mirrors (ranks.flatMap ops) s st (forRanks body s ranks) (forRanks body' st ranks) := by
  induction ranks generalizing s st with
  | nil => exact Mirrors.nil s st
  | cons rank ranks ih => exact (hbody s st rank).append (ih _ _)

/-- The calls of a loop over the other ranks. -/
theorem map_reqOp_others (g : UInt32 → Req Link) (e : Event) :
    ((others e).map g).map reqOp = (ranksBelow (e.vUint32 0)).flatMap
      fun rank => if rank.toUInt64 ≠ e.id1 then [reqOp (g rank)] else [] := by
  rw [others, List.map_map, flatMap_ite_eq_map_filter]
  rfl

/-- **The link code of a round** makes the calls of the event's individual operations. -/
theorem stepLinks_mirrors (args : Arguments) (e : Event) (s : StateOf IntKeys) (st : State) :
    Mirrors ((individual e).map reqOp) s st (stepLinks args s e) (stepLinks args st e) := by
  unfold individual stepLinks
  cases arm e.type with
  | ptpSend => exact putKey_mirrors s st .ptp _
  | ptpRecv => exact getKey_mirrors s st .ptp _
  | xt1Send f => exact putKey_mirrors s st f _
  | oneTxSend f =>
    rw [map_reqOp_others]
    refine forRanks_mirrors (fun s st rank => ?_) s st _
    split
    · exact putKey_mirrors s st f rank
    · exact Mirrors.nil s st
  | xt1Recv f =>
    rw [map_reqOp_others]
    refine forRanks_mirrors (fun s st rank => ?_) s st _
    split
    · exact getKey_mirrors s st f rank
    · exact Mirrors.nil s st
  | oneTxRecv f => exact getKey_mirrors s st f _
  | _ => exact Mirrors.nil s st

/-! ## Rounds -/

/-- The calls a round makes. -/
def callsOf (args : Arguments) (e : Event) : List Op :=
  if args.noLinks then [] else (individual e).map reqOp

theorem Mirrored.stamped (h : Mirrored s st) (t : ℚ) :
    Mirrored { s with timestamp := t } { st with timestamp := t } :=
  ⟨h.keys, h.fail, h.rootCreated, rfl⟩

/-- **A round** dies with both stores or with none, and makes its calls. -/
theorem step_mirrors (args : Arguments) (e : Event) (s : StateOf IntKeys) (st : State) :
    (step args s e = none ∧ step args st e = none) ∨
      ∃ res res', step args s e = some res ∧ step args st e = some res' ∧
        Mirrors (callsOf args e) s st res res' := by
  have hcalls : (arm e.type).isLink = false → callsOf args e = [] := fun hlink => by
    simp [callsOf, individual_eq_nil hlink]
  unfold step
  cases ha : arm e.type with
  | init =>
    refine .inr ⟨_, _, rfl, rfl, ?_⟩
    rw [hcalls (by rw [ha]; rfl)]
    refine ⟨?_, fun h _ => ?_, fun _ hno => absurd trivial hno, fun h => ?_⟩
    · unfold createContainers
      split <;> rfl
    · unfold createContainers
      simp only [h.rootCreated]
      split
      · exact ⟨⟨h.keys, h.fail, rfl, rfl⟩, rfl⟩
      · exact ⟨⟨h.keys, h.fail, rfl, rfl⟩, rfl⟩
    · unfold createContainers
      split <;> exact h
  | pushState | pushStateSend | pushStateRecv =>
    rw [hcalls (by rw [ha]; rfl)]
    cases hstates : args.noStates with
    | true =>
      exact .inr ⟨_, _, rfl, rfl, rfl, fun h _ => ⟨h.stamped _, rfl⟩,
        fun _ hno => absurd trivial hno, fun h => h⟩
    | false =>
      cases statePushed e with
      | none => exact .inl ⟨rfl, rfl⟩
      | some out =>
        exact .inr ⟨_, _, rfl, rfl, rfl, fun h _ => ⟨h.stamped _, rfl⟩,
          fun _ hno => absurd trivial hno, fun h => h⟩
  | popState | finalizeOut | skip =>
    rw [hcalls (by rw [ha]; rfl)]
    exact .inr ⟨_, _, rfl, rfl, rfl, fun h _ => ⟨h.stamped _, rfl⟩,
      fun _ hno => absurd trivial hno, fun h => h⟩
  | _ =>
    cases hl : args.noLinks with
    | true =>
      refine .inr ⟨_, _, rfl, rfl, ?_⟩
      rw [callsOf, hl, if_pos rfl]
      exact ⟨rfl, fun h _ => ⟨h.stamped _, rfl⟩, fun _ hno => absurd trivial hno, fun h => h⟩
    | false =>
      refine .inr ⟨_, _, rfl, rfl, ?_⟩
      have hlinks := stepLinks_mirrors args e { s with timestamp := e.timestamp }
        { st with timestamp := e.timestamp }
      rw [callsOf, hl]
      exact ⟨hlinks.keys, fun h => hlinks.same (h.stamped _), fun h => hlinks.lost (h.stamped _),
        hlinks.undefined⟩

/-! ## Runs -/

theorem loop_undefined (hs : s.keys = none) (es : List Event) :
    (loop args s es).state.keys = none := by
  induction es generalizing s with
  | nil => exact hs
  | cons e es ih =>
    unfold loop
    split
    · exact hs
    · rcases step_mirrors args e s (State.init none) with ⟨hnone, -⟩ | ⟨res, res', hres, -, hround⟩
      · rw [hnone]
        exact hs
      · rw [hres]
        exact ih (hround.undefined hs)

/-- The calls a run makes. -/
def RunOf.calls {σ : Type} (args : Arguments) (r : RunOf σ) : List Op :=
  (r.rounds.map Prod.fst).flatMap (callsOf args)

/-- **The loop** does the same with both stores, unless a queue fills up. -/
theorem loop_mirrors (args : Arguments) (h : Mirrored s st) (es : List Event) :
    (st.keys.Few ((loop args st es).calls args) →
      (loop args s es).rounds = (loop args st es).rounds ∧
        (loop args s es).died = (loop args st es).died ∧
        Mirrored (loop args s es).state (loop args st es).state) ∧
    (¬ st.keys.Few ((loop args st es).calls args) → (loop args s es).state.keys = none) := by
  induction es generalizing s st with
  | nil => exact ⟨fun _ => ⟨rfl, rfl, h⟩, fun hno => absurd trivial hno⟩
  | cons e es ih =>
    unfold loop
    rw [h.fail]
    split
    · exact ⟨fun _ => ⟨rfl, rfl, h⟩, fun hno => absurd trivial hno⟩
    · rcases step_mirrors args e s st with ⟨hnone, hnone'⟩ | ⟨res, res', hres, hres', hround⟩
      · rw [hnone, hnone']
        exact ⟨fun _ => ⟨rfl, rfl, h⟩, fun hno => absurd trivial hno⟩
      · rw [hres, hres']
        have hcalls : ∀ r : Run, RunOf.calls args { r with rounds := (e, res'.2) :: r.rounds } =
            callsOf args e ++ r.calls args := fun r => by simp [RunOf.calls]
        dsimp only
        rw [hcalls, KeyStore.few_append, ← hround.keys]
        refine ⟨fun hfew => ?_, fun hmany => ?_⟩
        · obtain ⟨hmirrored, houts⟩ := hround.same h hfew.1
          obtain ⟨hrounds, hdied, hstate⟩ := (ih hmirrored).1 hfew.2
          exact ⟨by rw [hrounds, houts], hdied, hstate⟩
        · by_cases hfew : st.keys.Few (callsOf args e)
          · exact (ih (hround.same h hfew).1).2 fun hrest => hmany ⟨hfew, hrest⟩
          · exact loop_undefined (hround.lost h hfew) es

theorem mirrored_init (size : Option Nat) : Mirrored (StateOf.init size) (State.init size) :=
  ⟨Keeps.init size, rfl, rfl, rfl⟩

/-- Fewer than `2 ^ 31` keys ever wait in a queue, in the run of the converter on a stream. -/
def FewWaiting (args : Arguments) (cap : Option Nat) (es : List Event) : Prop :=
  args.noLinks = true ∨
    Within (2 ^ 31) (fun _ => 0) (admitted cap [] (filedReqs (reached args cap es)))

instance (args : Arguments) (cap : Option Nat) (es : List Event) :
    Decidable (FewWaiting args cap es) := inferInstanceAs (Decidable (_ ∨ _))

theorem few_calls_iff (args : Arguments) (cap : Option Nat) (es : List Event) :
    (KeyStore.init cap).Few ((convert args cap es).calls args) ↔ FewWaiting args cap es := by
  rw [RunOf.calls, convert_rounds]
  cases hl : args.noLinks with
  | true =>
    have hnil : (reached args cap es).flatMap (callsOf args) = [] := by
      simp [callsOf, hl]
    rw [hnil]
    exact iff_of_true trivial (.inl hl)
  | false =>
    have hcalls : (reached args cap es).flatMap (callsOf args) =
        ((reached args cap es).flatMap individual).map reqOp := by
      rw [List.map_flatMap]
      exact List.flatMap_congr fun e _ => by rw [callsOf, hl]; rfl
    rw [hcalls, KeyStore.few_init_iff cap (reqOp_fits _), req_reqOp, FewWaiting, hl]
    exact (or_iff_right (by simp)).symm

/-- No `int` has overflowed. -/
def RunOf.Defined (r : RunOf IntKeys) : Prop := r.state.keys.isSome = true

/-- **An `int` overflows exactly if `2 ^ 31` keys wait in some queue.** -/
theorem convertOn_defined (args : Arguments) (size : Option Nat) (es : List Event) :
    (convertOn IntKeys args size es).Defined ↔ FewWaiting args size es := by
  obtain ⟨hsame, hlost⟩ := loop_mirrors args (mirrored_init size) es
  rw [← few_calls_iff]
  exact Keeps.isSome_iff (fun hfew => (hsame hfew).2.2.keys) hlost

/-- **And until then the store that never overflows does the same.** -/
theorem convertOn_same {size : Option Nat} {es : List Event} (hfew : FewWaiting args size es) :
    (convertOn IntKeys args size es).rounds = (convert args size es).rounds ∧
      (convertOn IntKeys args size es).died = (convert args size es).died ∧
      (convertOn IntKeys args size es).outs = (convert args size es).outs := by
  obtain ⟨hrounds, hdied, hstate⟩ :=
    (loop_mirrors args (mirrored_init size) es).1 ((few_calls_iff args size es).mpr hfew)
  have hrounds' : (convertOn IntKeys args size es).rounds = (convert args size es).rounds := hrounds
  have hdied' : (convertOn IntKeys args size es).died = (convert args size es).died := hdied
  have htime : (convertOn IntKeys args size es).state.timestamp =
    (convert args size es).state.timestamp := hstate.timestamp
  exact ⟨hrounds', hdied', by rw [RunOf.outs, RunOf.outs, hrounds', hdied', htime]⟩

/-- Where every event is taken and no receive misses, the stream says whether a queue fills up. -/
theorem fewWaiting_of_all {es : List Event} (hl : args.noLinks = false)
    (hpass : ∀ e ∈ es, passes args e = true) (he : Enough (filedReqs es)) :
    FewWaiting args none es ↔ Within (2 ^ 31) (fun _ => 0) (filedReqs es) := by
  have htaken : taken args es = es := List.takeWhile_eq_self_iff.mpr hpass
  have hreach : reached args none es = es := by
    rw [← htaken]
    refine (reached_eq_taken (Or.inr (Or.inr ((enough_reached_iff _).mpr ?_)))).trans ?_
    · rw [admitted_none, htaken, htaken]
      exact he
    · rw [htaken, htaken]
  rw [FewWaiting, hreach, admitted_none, hl]
  exact or_iff_right (by simp)

section
variable {r : RunOf IntKeys} {r' : Run}

theorem starts_congr {τ : Type} (h : r.rounds = r'.rounds) (tags : List τ) :
    r.starts tags = r'.starts tags := by rw [RunOf.starts, RunOf.starts, h]

theorem ends_congr {τ : Type} (h : r.rounds = r'.rounds) (tags : List τ) :
    r.ends tags = r'.ends tags := by rw [RunOf.ends, RunOf.ends, h]

theorem reports_congr (h : r.outs = r'.outs) : r.reports = r'.reports := by
  rw [RunOf.reports, RunOf.reports, h]

theorem trace_congr (h : r.outs = r'.outs) : r.trace = r'.trace := by
  rw [RunOf.trace, RunOf.trace, h]

end

/-! ## Links that take turns -/

/-- **The converter pairs links right when the links of a queue take turns**, over any stream
    of events, and only then, as long as the keys are distinct; and no `int` overflows when fewer
    than `2 ^ 31` keys wait in every queue, and only then. -/
theorem convert_paired (args : Arguments) (hl : args.noLinks = false)
    (hi : args.ignoreErrors = true) (es : List Event) :
    let r := convertOn IntKeys args none es
    (TakeTurns args es → FewWaiting args none es → r.Defined ∧ Paired args es r) ∧
      (sends args es ≤ 2 ^ 64 → r.Defined → Paired args es r →
        TakeTurns args es ∧ FewWaiting args none es) := by
  intro r
  obtain ⟨hright, honly⟩ := paired_convert args hl hi es
  have hpaired : FewWaiting args none es →
      (Paired args es r ↔ Paired args es (convert args none es)) := fun hfew => by
    rw [Paired, Paired, RunOf.links, RunOf.links, (convertOn_same hfew).1]
  refine ⟨fun hturn hfew => ?_, fun hsends hdefined hr => ?_⟩
  · exact ⟨(convertOn_defined args none es).mpr hfew, (hpaired hfew).mpr (hright hturn)⟩
  · have hfew := (convertOn_defined args none es).mp hdefined
    exact ⟨honly hsends ((hpaired hfew).mp hr), hfew⟩

theorem convert_paired_oneMessage :
    Paired ⟨true, false, false⟩ oneMessage
      (convertOn IntKeys ⟨true, false, false⟩ none oneMessage) :=
  ((convert_paired ⟨true, false, false⟩ rfl rfl oneMessage).1 (by decide +kernel)
    (by decide +kernel)).2

/-- Rank 1 sends to a gather at rank 0 and then from a scatter of its own; rank 0 receives
    the scatter's message. -/
def gatherThenScatter : List Event :=
  [.ofRecord 1 0 (rstEventIil akyNt1Send 0 40 2), .ofRecord 1 1 (rstEventIil aky1tnSend 2 40 2),
   .ofRecord 0 2 (rstEventI aky1tnRecv 1)]

/-- The scatter's receive is linked to the gather's send. -/
theorem convert_not_paired :
    ¬ Paired ⟨true, false, false⟩ gatherThenScatter
      (convertOn IntKeys ⟨true, false, false⟩ none gatherThenScatter) := by
  decide +kernel

end Converter
end Akypuera

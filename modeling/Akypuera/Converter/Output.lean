import Akypuera.Converter.Reached

/-!
# `--dummy` and `--basic`

`--dummy` leaves out the header and nothing else: the loop does not look at it, so **what the events
of the stream are converted to is written all the same**. `--basic` is parsed and looked at nowhere,
so **extended events are written as ever**.

What an event is converted to depends on the event and the two flags for links and states, so
whether there is any output (`quiet`), and whether there are extended events among it (`extended`),
can be read off the stream.
-/

set_option autoImplicit false

namespace Akypuera
namespace Converter

open CText Code Keys Fifo Search

/-- The flags of `struct arguments`. -/
structure Options extends Arguments where
  dummy : Bool
  basic : Bool
  deriving DecidableEq

/-- The Paje events that define types. -/
inductive Definition where
  | defineContainerType (aliasName type name : Str)
  | defineStateType (aliasName type name : Str)
  | defineLinkType (aliasName type source dest name : Str)
  deriving DecidableEq

/-- `aky_paje_hierarchy`. -/
def akyPajeHierarchy : List Definition :=
  [.defineContainerType "ROOT".toList "0".toList "ROOT".toList,
   .defineContainerType sProcess "ROOT".toList sProcess,
   .defineStateType sState sProcess sState,
   .defineLinkType sLink "ROOT".toList sProcess sProcess sLink]

/-- The Paje events that `main` writes. Comments, and the declarations of `poti_header` and
    `poti_header_DeclareEvent`, are no events; they are left out with the definitions. -/
def output (options : Options) (size : Option Nat) (es : List Event) : List (Definition ⊕ Paje) :=
  (if options.dummy then [] else akyPajeHierarchy.map .inl) ++
    (convert options.toArguments size es).trace.map .inr

/-- The declared variant of an event. -/
def Paje.user : Paje → Option UserEvent
  | .pushState _ _ _ _ user => user.map Prod.fst
  | .startLink _ _ _ _ _ _ user => user.map Prod.fst
  | _ => none

/-- **The two restrictions**: no output, and no declared variants. -/
structure Restricted (options : Options) (events : List (Definition ⊕ Paje)) : Prop where
  dummy : options.dummy = true → events = []
  basic : options.basic = true → ∀ p, .inr p ∈ events → p.user = none

/-- An event that is converted to nothing. -/
def quiet (args : Arguments) (e : Event) : Bool :=
  match arm e.type with
  | .ptpSend | .ptpRecv | .xt1Send _ | .oneTxSend _ | .xt1Recv _ | .oneTxRecv _ =>
      args.noLinks || (individual e).isEmpty
  | .pushState | .pushStateSend | .pushStateRecv | .popState => args.noStates
  | .init | .finalizeOut => false
  | .skip => true

/-- An event that is converted to a declared variant, if the process survives it. -/
def extended (args : Arguments) (e : Event) : Bool :=
  match arm e.type with
  | .ptpSend | .xt1Send _ | .oneTxSend _ =>
      !args.noLinks && !(individual e).isEmpty &&
        decide ((sizeAndMark e).1 ≠ -1 ∧ (sizeAndMark e).2 ≠ -1)
  | .pushState => !args.noStates && decide (e.nUint64 = 1)
  | .pushStateSend | .pushStateRecv => !args.noStates
  | _ => false

theorem extended_of_link {args : Arguments} {e : Event} (hlink : (arm e.type).isLink = true) :
    extended args e = ((arm e.type).sends && (!args.noLinks && !(individual e).isEmpty &&
      decide ((sizeAndMark e).1 ≠ -1 ∧ (sizeAndMark e).2 ≠ -1))) := by
  unfold extended
  cases ha : arm e.type <;> simp [ha, Arm.isLink, Arm.sends] at hlink ⊢

variable {args : Arguments} {st st' : State} {e : Event} {outs : List Out}

/-! ## Links -/

/-- The links of a round are its entries in the log. -/
theorem pajes_of_link (hlink : (arm e.type).isLink = true)
    (h : step args st e = some (st', outs)) :
    ∃ log : List (Entry Link Str), pajes outs = log.map (entryPaje e) ∧
      log.map Entry.req = if args.noLinks then [] else individual e := by
  rw [step_link st hlink] at h
  cases hl : args.noLinks with
  | true =>
    rw [hl, if_pos rfl] at h
    cases h
    exact ⟨[], rfl, rfl⟩
  | false =>
    rw [hl, if_neg (by simp)] at h
    have hperf : Performed args e (reporter e) (individual e)
        { st with timestamp := e.timestamp } _ := stepLinks_performed _
    refine ⟨linkLog st.keys (individual e), ?_, linkLog_req _ _⟩
    rw [← pajes_written, ← hperf.outs, Option.some.inj h]

theorem user_startLink (e : Event) (keys key : Str) :
    (startLink e keys key).user = none ↔
      ¬ ((sizeAndMark e).1 ≠ -1 ∧ (sizeAndMark e).2 ≠ -1) := by
  rw [startLink]
  obtain ⟨size, mark⟩ := sizeAndMark e
  dsimp only
  by_cases h : size ≠ -1 ∧ mark ≠ -1
  · exact iff_of_false (by rw [if_pos h]; nofun) fun hno => hno h
  · exact iff_of_true (by rw [if_neg h]; rfl) h

/-- The links of a round are declared variants where the event is a send with size and mark. -/
theorem user_of_link (hlink : (arm e.type).isLink = true)
    (h : step args st e = some (st', outs)) :
    (∀ p ∈ pajes outs, p.user = none) ↔ extended args e = false := by
  obtain ⟨log, hpajes, hreq⟩ := pajes_of_link hlink h
  rw [hpajes, List.forall_mem_map, extended_of_link hlink]
  cases hl : args.noLinks with
  | true =>
    rw [hl, if_pos rfl, List.map_eq_nil_iff] at hreq
    simp [hreq]
  | false =>
    rw [hl, if_neg (by simp)] at hreq
    have hmem : ∀ entry ∈ log, entry.req ∈ individual e := fun entry hentry =>
      hreq ▸ List.mem_map_of_mem hentry
    constructor
    · intro hall
      by_contra hext
      simp only [Bool.not_eq_false, Bool.and_eq_true, Bool.not_false, true_and,
        Bool.not_eq_true', List.isEmpty_eq_false_iff, decide_eq_true_iff] at hext
      obtain ⟨hsends, hne, hsizes⟩ := hext
      rw [← hreq] at hne
      obtain ⟨entry, hentry⟩ := List.exists_mem_of_ne_nil log fun hnil => hne (by rw [hnil]; rfl)
      cases entry with
      | push l key => exact (user_startLink e _ key).mp (hall _ hentry) hsizes
      | pop l ans =>
        have hreceives := receives_of_take (hmem _ hentry)
        exact absurd hsends (by rw [not_sends_of_receives hreceives]; exact Bool.false_ne_true)
    · intro hext entry hentry
      cases entry with
      | push l key =>
        apply (user_startLink e _ key).mpr
        intro hsizes
        have hsends := sends_of_put (hmem _ hentry)
        have hne : (individual e).isEmpty = false :=
          List.isEmpty_eq_false_iff.mpr (List.ne_nil_of_mem (hmem _ hentry))
        rw [hsends, hne, decide_eq_true hsizes] at hext
        exact absurd hext (by decide)
      | pop l ans => rfl

theorem quiet_link_iff (hlink : (arm e.type).isLink = true) :
    quiet args e = true ↔ args.noLinks = true ∨ individual e = [] := by
  unfold quiet
  cases ha : arm e.type <;> simp [ha, Arm.isLink] at hlink ⊢

theorem quiet_of_link (hlink : (arm e.type).isLink = true)
    (h : step args st e = some (st', outs)) :
    pajes outs = [] ↔ quiet args e = true := by
  obtain ⟨log, hpajes, hreq⟩ := pajes_of_link hlink h
  rw [hpajes, List.map_eq_nil_iff, quiet_link_iff hlink, ← List.map_eq_nil_iff, hreq]
  cases args.noLinks <;> simp

/-! ## Other events -/

/-- **Which events are converted to nothing.** -/
theorem pajes_eq_nil_iff (h : step args st e = some (st', outs)) :
    pajes outs = [] ↔ quiet args e = true := by
  cases hlink : (arm e.type).isLink with
  | true => exact quiet_of_link hlink h
  | false =>
    obtain ⟨res, hres, hround⟩ := step_round st (passes_of_step h)
    obtain rfl := Option.some.inj (h.symm.trans hres)
    obtain ⟨ps, hwrote, hps⟩ := hround.trace
    rw [hps, quiet]
    unfold Wrote at hwrote
    cases ha : arm e.type with
    | init =>
      simp only [ha] at hwrote
      simp [hwrote]
    | pushState | pushStateSend | pushStateRecv =>
      simp only [ha] at hwrote
      cases hs : args.noStates with
      | true => simpa [hs] using hwrote
      | false =>
        simp only [hs] at hwrote
        obtain ⟨v, u, rfl⟩ := hwrote
        simp
    | popState | finalizeOut =>
      simp only [ha] at hwrote
      cases hs : args.noStates <;> simp [hwrote, hs]
    | skip =>
      simp only [ha] at hwrote
      simp [hwrote]
    | _ => rw [ha] at hlink; exact absurd hlink (by simp [Arm.isLink])

/-- A plain state is a declared variant with a lone 64-bit field, and the others always are. -/
theorem user_statePushed {p : Paje} (h : statePushed e = some (.paje p)) :
    p.user = none ↔ arm e.type = .pushState ∧ e.nUint64 ≠ 1 := by
  unfold statePushed at h
  cases ha : arm e.type with
  | pushState =>
    simp only [ha, pushState, Option.bind_eq_bind, Option.bind_eq_some_iff] at h
    obtain ⟨value, -, h⟩ := h
    split at h
    · next hmark =>
      cases h
      exact iff_of_false (Option.some_ne_none _) fun hno => hno.2 hmark
    · next hmark =>
      cases h
      exact iff_of_true rfl ⟨rfl, hmark⟩
  | pushStateSend =>
    simp only [ha, pushStateSend, Option.bind_eq_bind, Option.bind_eq_some_iff] at h
    obtain ⟨value, -, -, -, -, -, h⟩ := h
    cases h
    exact iff_of_false (Option.some_ne_none _) fun hno => absurd hno.1 (by decide)
  | pushStateRecv =>
    simp only [ha, pushStateRecv, Option.bind_eq_bind, Option.bind_eq_some_iff] at h
    obtain ⟨value, -, -, -, h⟩ := h
    cases h
    exact iff_of_false (Option.some_ne_none _) fun hno => absurd hno.1 (by decide)
  | _ => simp [ha] at h

theorem extended_of_push (hs : args.noStates = false) (hpush : (arm e.type).pushes = true) :
    extended args e = false ↔ arm e.type = .pushState ∧ e.nUint64 ≠ 1 := by
  unfold extended
  cases ha : arm e.type <;> simp [ha, hs, Arm.pushes] at hpush ⊢

/-- **Which events are converted to declared variants.** -/
theorem user_iff (h : step args st e = some (st', outs)) :
    (∀ p ∈ pajes outs, p.user = none) ↔ extended args e = false := by
  cases hlink : (arm e.type).isLink with
  | true => exact user_of_link hlink h
  | false =>
    unfold step at h
    cases ha : arm e.type with
    | init =>
      simp only [ha, createContainers] at h
      split at h <;> cases h <;> simp [pajes, Paje.user, extended, ha]
    | pushState | pushStateSend | pushStateRecv =>
      have hpush : (arm e.type).pushes = true := by rw [ha]; rfl
      simp only [ha] at h
      cases hs : args.noStates with
      | true =>
        rw [hs, if_pos rfl] at h
        cases h
        simp [pajes, extended, ha, hs]
      | false =>
        rw [hs, if_neg (by simp)] at h
        obtain ⟨out, hout, heq⟩ := Option.map_eq_some_iff.mp h
        obtain ⟨v, u, rfl⟩ := statePushed_eq hpush hout
        cases heq
        rw [extended_of_push hs hpush, ← user_statePushed hout]
        simp [pajes]
    | popState | finalizeOut =>
      simp only [ha, popState] at h
      cases h
      cases hs : args.noStates <;> simp [pajes, Paje.user, extended, ha]
    | skip =>
      simp only [ha] at h
      cases h
      simp [pajes, extended, ha]
    | _ => rw [ha] at hlink; exact absurd hlink (by simp [Arm.isLink])

/-! ## Runs -/

theorem pajes_flatMap (rounds : List (Event × List Out)) :
    pajes (rounds.flatMap Prod.snd) = rounds.flatMap fun round => pajes round.2 :=
  List.filterMap_flatMap

/-- No event that the loop takes is converted to a declared variant. -/
def Plain (args : Arguments) (size : Option Nat) (es : List Event) : Prop :=
  ∀ e ∈ reached args size es, extended args e = false

/-- No event is converted to anything, up to one that the process dies on, and without one the
    stream does not end at a time of 0 or later. -/
structure Silent (args : Arguments) (es : List Event) : Prop where
  quiet : ∀ e ∈ taken args es, Converter.quiet args e = true
  ended : taken args es = es → ∀ e ∈ es.getLast?, e.timestamp < 0

/-- **When a run writes no declared variant.** -/
theorem trace_plain_iff (size : Option Nat) (es : List Event) :
    (∀ p ∈ (convert args size es).trace, p.user = none) ↔ Plain args size es := by
  have hend : ∀ p ∈ pajes (if (convert args size es).died = false ∧
      0 ≤ (convert args size es).state.timestamp then
      [.paje (.destroyContainer (convert args size es).state.timestamp "ROOT".toList sRoot)]
      else []), p.user = none := by
    split <;> simp [pajes, Paje.user]
  rw [RunOf.trace_eq, RunOf.outs, pajes_append, List.forall_mem_append, and_iff_left hend,
    pajes_flatMap, List.forall_mem_flatMap, Plain, ← convert_rounds, List.forall_mem_map]
  apply forall₂_congr
  intro round hround
  obtain ⟨before, after, hstep⟩ := convert_step args size es round hround
  exact user_iff hstep

/-- A quiet round leaves the loop going: without links there is no receive to miss its key. -/
theorem fail_of_quiet (h : step args st e = some (st', outs)) (hquiet : quiet args e = true) :
    st'.fail = st.fail := by
  have hp := passes_of_step h
  cases hlink : (arm e.type).isLink with
  | false =>
    obtain ⟨res, hres, -, hfail⟩ := step_other st hlink hp
    obtain rfl := Option.some.inj (h.symm.trans hres)
    exact hfail
  | true =>
    cases hl : args.noLinks with
    | true =>
      obtain ⟨res, hres, -, hfail⟩ := step_noLinks hl st hp
      obtain rfl := Option.some.inj (h.symm.trans hres)
      exact hfail
    | false =>
      have hnone : individual e = [] := by
        rcases (quiet_link_iff hlink).mp hquiet with hno | hnone
        · exact absurd (hl.symm.trans hno) Bool.false_ne_true
        · exact hnone
      obtain ⟨res, hres, -, -, hfail⟩ := step_performed hl st hp
      obtain rfl := Option.some.inj (h.symm.trans hres)
      rw [hfail, hnone]
      simp [linkLog]

theorem timestamp_of_step (h : step args st e = some (st', outs)) : st'.timestamp = e.timestamp := by
  obtain ⟨res, hres, hround⟩ := step_round st (passes_of_step h)
  obtain rfl := Option.some.inj (h.symm.trans hres)
  exact hround.timestamp

theorem loop_of_not_passes (hfail : st.fail = false) (hp : passes args e = false)
    (es : List Event) : loop args st (e :: es) = { rounds := [], state := st, died := true } := by
  simp [loop, hfail, step_eq_none hp]

/-- **A run writes nothing in the loop as long as all events are quiet.** -/
theorem loop_quiet_iff (hfail : st.fail = false) (es : List Event) :
    pajes ((loop args st es).rounds.flatMap Prod.snd) = [] ↔
      ∀ e ∈ taken args es, quiet args e = true := by
  induction es generalizing st with
  | nil => exact iff_of_true rfl (List.forall_mem_nil _)
  | cons e es ih =>
    cases hp : passes args e with
    | false =>
      rw [loop_of_not_passes hfail hp, taken, List.takeWhile_cons_of_neg (by simp [hp])]
      exact iff_of_true rfl (List.forall_mem_nil _)
    | true =>
      obtain ⟨⟨st', outs⟩, hstep⟩ := step_survives st hp
      rw [loop_cons es hfail hstep, taken, List.takeWhile_cons_of_pos hp, List.flatMap_cons,
        pajes_append, List.append_eq_nil_iff, pajes_eq_nil_iff hstep, List.forall_mem_cons]
      apply and_congr_right
      intro hquiet
      exact ih ((fail_of_quiet hstep hquiet).trans hfail)

/-- **How such a run ends**: at an event that the process dies on, or at the time of the last. -/
theorem loop_quiet_end (hfail : st.fail = false) {es : List Event}
    (hquiet : ∀ e ∈ taken args es, quiet args e = true) :
    ((loop args st es).died = false ↔ taken args es = es) ∧
      (taken args es = es →
        (loop args st es).state.timestamp = (es.getLast?.map Event.timestamp).getD st.timestamp) := by
  induction es generalizing st with
  | nil => exact ⟨iff_of_true rfl rfl, fun _ => rfl⟩
  | cons e es ih =>
    cases hp : passes args e with
    | false =>
      rw [loop_of_not_passes hfail hp, taken, List.takeWhile_cons_of_neg (by simp [hp])]
      have hne : [] ≠ e :: es := (List.cons_ne_nil e es).symm
      exact ⟨iff_of_false (by simp) hne, fun hall => absurd hall hne⟩
    | true =>
      obtain ⟨⟨st', outs⟩, hstep⟩ := step_survives st hp
      rw [taken, List.takeWhile_cons_of_pos hp] at hquiet ⊢
      obtain ⟨hhere, hrest⟩ := List.forall_mem_cons.mp hquiet
      obtain ⟨hdied, htime⟩ := ih ((fail_of_quiet hstep hhere).trans hfail) hrest
      rw [loop_cons es hfail hstep, List.cons.injEq, and_iff_right rfl]
      refine ⟨hdied, fun hall => (htime hall).trans ?_⟩
      rw [timestamp_of_step hstep]
      cases es with
      | nil => rfl
      | cons e' es =>
        rw [List.getLast?_cons_cons, List.getLast?_eq_some_getLast (List.cons_ne_nil e' es)]
        rfl

/-- **When a run writes nothing at all.** -/
theorem trace_eq_nil_iff (size : Option Nat) (es : List Event) :
    (convert args size es).trace = [] ↔ Silent args es := by
  have hloop := @loop_quiet_iff args (State.init size) rfl es
  have hend := @loop_quiet_end args (State.init size) rfl es
  have hroot : pajes (if (convert args size es).died = false ∧
      0 ≤ (convert args size es).state.timestamp then
      [.paje (.destroyContainer (convert args size es).state.timestamp "ROOT".toList sRoot)]
      else []) = [] ↔
      ¬ ((convert args size es).died = false ∧ 0 ≤ (convert args size es).state.timestamp) := by
    split
    · next h => exact iff_of_false nofun fun hno => hno h
    · next h => exact iff_of_true rfl h
  rw [RunOf.trace_eq, RunOf.outs, pajes_append, List.append_eq_nil_iff, hroot]
  constructor
  · rintro ⟨hrounds, hopen⟩
    have hquiet := hloop.mp hrounds
    obtain ⟨hdied, htime⟩ := hend hquiet
    refine ⟨hquiet, ?_⟩
    intro hall e he
    by_contra hlate
    refine hopen ⟨hdied.mpr hall, ?_⟩
    rw [convert, htime hall, Option.mem_def.mp he]
    exact not_lt.mp hlate
  · intro hsilent
    obtain ⟨hdied, htime⟩ := hend hsilent.quiet
    refine ⟨hloop.mpr hsilent.quiet, ?_⟩
    intro hopen
    have hall := hdied.mp hopen.1
    have hlate := hopen.2
    rw [convert, htime hall] at hlate
    cases hlast : es.getLast? with
    | none =>
      -- the time before the first event is -1
      rw [hlast] at hlate
      exact absurd hlate (by simp [State.init, StateOf.init])
    | some e =>
      rw [hlast] at hlate
      exact absurd (hsilent.ended hall e hlast) (not_lt.mpr hlate)

/-! ## The two options -/

/-- **When the restrictions are kept**: with `--dummy` for streams that are converted to nothing,
    and with `--basic` for streams without an extended event. -/
theorem restricted_iff (options : Options) (size : Option Nat) (es : List Event) :
    Restricted options (output options size es) ↔
      (options.dummy = true → Silent options.toArguments es) ∧
        (options.basic = true → Plain options.toArguments size es) := by
  have hdummy : (options.dummy = true → output options size es = []) ↔
      (options.dummy = true → Silent options.toArguments es) := by
    apply forall_congr'
    intro hd
    rw [output, if_pos hd, List.nil_append, List.map_eq_nil_iff, trace_eq_nil_iff]
  have hbasic : (∀ p, .inr p ∈ output options size es → p.user = none) ↔
      Plain options.toArguments size es := by
    rw [← trace_plain_iff]
    refine forall_congr' fun p => imp_congr_left ?_
    simp only [output, List.mem_append, List.mem_map, Sum.inr.injEq, exists_eq_right]
    refine or_iff_right ?_
    split <;> simp
  rw [← hdummy, ← hbasic]
  exact ⟨fun h => ⟨h.dummy, h.basic⟩, fun h => ⟨h.1, h.2⟩⟩

/-- No other option is given. -/
def dummyOnly : Options := ⟨⟨false, false, false⟩, true, false⟩

def basicOnly : Options := ⟨⟨false, false, false⟩, false, true⟩

/-- A process starts. -/
def oneInit : List Event := [.ofRecord 0 0 (rstEvent mpiInit)]

/-- A message is sent. -/
def oneSend : List Event := [.ofRecord 0 0 (rstEventIl mpiSendIn 40 0)]

/-- **Its container is created with `--dummy`, and its state is a declared variant with
    `--basic`.** -/
theorem not_restricted :
    ¬ Restricted dummyOnly (output dummyOnly (some (hcreateSize akyKeyTableSize)) oneInit) ∧
      ¬ Restricted basicOnly (output basicOnly (some (hcreateSize akyKeyTableSize)) oneSend) := by
  constructor
  · intro h
    have hempty := (List.append_eq_nil_iff.mp (h.dummy rfl)).2
    rw [List.map_eq_nil_iff, trace_eq_nil_iff] at hempty
    exact absurd hempty.quiet (by decide +kernel)
  · intro h
    have hplain : ∀ p ∈ (convert basicOnly.toArguments (some (hcreateSize akyKeyTableSize))
        oneSend).trace, p.user = none := by
      intro p hp
      exact h.basic rfl p (List.mem_append_right _ (List.mem_map_of_mem hp))
    rw [hcreateSize_akyKeyTableSize] at hplain
    exact absurd ((trace_plain_iff _ _).mp hplain _ List.mem_cons_self) (by decide +kernel)

end Converter
end Akypuera

import Akypuera.Converter.Reached

/-!
# Leaving out links or states

`no_links` and `no_states` keep a `case` from doing its work, and that work may be more than
writing: the link code runs the key store and can raise `fail`. The two runs are followed side by
side here. **With `no_links` the key stores part, and nothing that is still written depends on
them**; `fail` is the one thing that would, and it stays down where no receive misses its key or
errors are ignored. With `no_states` the two runs are in the same state throughout.
-/

set_option autoImplicit false

namespace Akypuera
namespace Converter

open CText Code Keys Fifo

/-- The events of states. -/
def Paje.isState : Paje → Bool
  | .pushState .. | .popState .. => true
  | _ => false

/-- The flags with links and states left out as said. -/
def Arguments.leaving (args : Arguments) (noLinks noStates : Bool) : Arguments :=
  { ignoreErrors := args.ignoreErrors, noLinks := noLinks, noStates := noStates }

/-- What is written in spite of the two flags. -/
def Paje.stays (noLinks noStates : Bool) (p : Paje) : Bool :=
  !(noLinks && p.isLink) && !(noStates && p.isState)

/-- What the two runs agree on. -/
structure Alike (noLinks : Bool) (st st' : State) : Prop where
  timestamp : st'.timestamp = st.timestamp
  rootCreated : st'.rootCreated = st.rootCreated
  fail : st'.fail = st.fail
  keys : noLinks = false → st'.keys = st.keys

theorem Alike.refl (noLinks : Bool) (st : State) : Alike noLinks st st := ⟨rfl, rfl, rfl, fun _ => rfl⟩

variable {args : Arguments} {noLinks : Bool} (noStates : Bool) {st st' : State} {e : Event}

omit noStates in
/-- Where links are kept, the two are in the same state. -/
theorem Alike.eq (h : Alike false st st') : st' = st := by
  obtain ⟨htime, hroot, hfail, hkeys⟩ := h
  cases st
  cases st'
  simp_all

theorem filter_links {ps : List Paje} (h : ∀ p ∈ ps, p.isLink = true) :
    ps.filter (Paje.stays noLinks noStates) = if noLinks then [] else ps := by
  cases noLinks with
  | true => exact List.filter_eq_nil_iff.mpr fun p hp => by simp [Paje.stays, h p hp]
  | false =>
    apply List.filter_eq_self.mpr
    intro p hp
    have hlink := h p hp
    cases p with
    | startLink | endLink => simp [Paje.stays, Paje.isState]
    | _ => exact absurd hlink (by simp [Paje.isLink])

/-- A round of the link code. -/
theorem filtered_link (h : Alike noLinks st st') (hlink : (arm e.type).isLink = true)
    (hquiet : args.ignoreErrors = true ∨ ∀ res,
      step (args.leaving false false) st e = some res → reports res.2 = []) :
    ∃ res res', step (args.leaving false false) st e = some res ∧
      step (args.leaving noLinks noStates) st' e = some res' ∧
      Alike noLinks res.1 res'.1 ∧ res.1.fail = st.fail ∧
      pajes res'.2 = (pajes res.2).filter (Paje.stays noLinks noStates) := by
  have hround := @round_link (args.leaving false false) e st hlink
  have hstep := @step_link (args.leaving false false) e st hlink
  have hfail : (stepLinks (args.leaving false false)
      { st with timestamp := e.timestamp } e).1.fail = st.fail := by
    refine hround.fail (hquiet.imp_right fun hq => ?_)
    exact hq _ hstep
  have hlinks : ∀ p ∈ pajes (stepLinks (args.leaving false false)
      { st with timestamp := e.timestamp } e).2, p.isLink = true := by
    have hperf : Performed (args.leaving false false) e (reporter e) (individual e)
        { st with timestamp := e.timestamp } _ := stepLinks_performed _
    rw [hperf.outs, pajes_written]
    intro p hp
    obtain ⟨entry, _, rfl⟩ := List.mem_map.mp hp
    exact (entryPaje_link entry).1
  refine ⟨_, _, hstep, @step_link (args.leaving noLinks noStates) e st' hlink, ?_, hfail, ?_⟩
  · cases noLinks with
    | true =>
      refine ⟨hround.timestamp.symm, ?_, h.fail.trans hfail.symm, fun hno => absurd hno (by simp)⟩
      have hinit : arm e.type ≠ .init := fun hi => by rw [hi] at hlink; exact absurd hlink (by decide)
      exact h.rootCreated.trans (by rw [hround.rootCreated]; simp [hinit])
    | false =>
      rw [h.eq]
      exact Alike.refl false _
  · refine Eq.trans ?_ (filter_links noStates hlinks).symm
    cases noLinks with
    | true => rfl
    | false => rw [h.eq]; rfl

/-- A round that writes no links. -/
theorem filtered_other (h : Alike noLinks st st') (hlink : (arm e.type).isLink = false)
    (hp : passes (args.leaving false false) e = true) :
    ∃ res res', step (args.leaving false false) st e = some res ∧
      step (args.leaving noLinks noStates) st' e = some res' ∧
      Alike noLinks res.1 res'.1 ∧ res.1.fail = st.fail ∧
      pajes res'.2 = (pajes res.2).filter (Paje.stays noLinks noStates) := by
  have htimed : Alike noLinks { st with timestamp := e.timestamp }
      { st' with timestamp := e.timestamp } := ⟨rfl, h.rootCreated, h.fail, h.keys⟩
  have hcontainer : ∀ t a ty c n, Paje.stays noLinks noStates (.createContainer t a ty c n) = true := by
    simp [Paje.stays, Paje.isLink, Paje.isState]
  unfold step
  cases ha : arm e.type with
  | init =>
    refine ⟨_, _, rfl, rfl, ?_⟩
    simp only [createContainers, h.rootCreated]
    split
    · exact ⟨⟨rfl, rfl, h.fail, h.keys⟩, rfl, by simp [pajes, hcontainer]⟩
    · exact ⟨⟨rfl, rfl, h.fail, h.keys⟩, rfl, by simp [pajes, hcontainer]⟩
  | pushState | pushStateSend | pushStateRecv =>
    have hpush : (arm e.type).pushes = true := by rw [ha]; rfl
    obtain ⟨out, hout⟩ : ∃ out, statePushed e = some out := by
      simpa [passes, hpush, Arguments.leaving, Option.isSome_iff_exists] using hp
    obtain ⟨v, u, rfl⟩ := statePushed_eq hpush hout
    simp only [hout, Arguments.leaving]
    cases noStates <;>
      exact ⟨_, _, rfl, rfl, htimed, rfl, by simp [pajes, Paje.stays, Paje.isLink, Paje.isState]⟩
  | popState | finalizeOut =>
    simp only [Arguments.leaving]
    cases noStates <;>
      exact ⟨_, _, rfl, rfl, htimed, rfl, by
        simp [pajes, popState, Paje.stays, Paje.isLink, Paje.isState]⟩
  | skip => exact ⟨_, _, rfl, rfl, htimed, rfl, rfl⟩
  | _ => rw [ha] at hlink; exact absurd hlink (by simp [Arm.isLink])

/-- **One round of the two runs.** -/
theorem filtered_step (h : Alike noLinks st st')
    (hp : passes (args.leaving false false) e = true)
    (hquiet : args.ignoreErrors = true ∨ ∀ res,
      step (args.leaving false false) st e = some res → reports res.2 = []) :
    ∃ res res', step (args.leaving false false) st e = some res ∧
      step (args.leaving noLinks noStates) st' e = some res' ∧
      Alike noLinks res.1 res'.1 ∧ res.1.fail = st.fail ∧
      pajes res'.2 = (pajes res.2).filter (Paje.stays noLinks noStates) := by
  cases hlink : (arm e.type).isLink with
  | true => exact filtered_link noStates h hlink hquiet
  | false => exact filtered_other noStates h hlink hp

/-- **The two runs.** -/
theorem filtered_loop {es : List Event} (h : Alike noLinks st st') (hfail : st.fail = false)
    (hpass : ∀ e ∈ es, passes (args.leaving false false) e = true)
    (hquiet : args.ignoreErrors = true ∨
      reports ((loop (args.leaving false false) st es).rounds.flatMap Prod.snd) = []) :
    let run := loop (args.leaving false false) st es
    let run' := loop (args.leaving noLinks noStates) st' es
    run.died = false ∧ run'.died = false ∧ run'.state.timestamp = run.state.timestamp ∧
      pajes (run'.rounds.flatMap Prod.snd) =
        (pajes (run.rounds.flatMap Prod.snd)).filter (Paje.stays noLinks noStates) := by
  induction es generalizing st st' with
  | nil => exact ⟨rfl, rfl, h.timestamp, rfl⟩
  | cons e es ih =>
    have hp := hpass e (by simp)
    obtain ⟨⟨st₁, outs⟩, hstep⟩ := step_survives st hp
    rw [loop_cons es hfail hstep] at hquiet ⊢
    simp only [List.flatMap_cons, reports_append, List.append_eq_nil_iff] at hquiet
    obtain ⟨res, ⟨st₁', outs'⟩, hres, hstep', halike, hkeep, houts⟩ :=
      filtered_step noStates h hp (hquiet.imp_right fun hq res hres => by
        rw [hstep] at hres
        cases hres
        exact hq.1)
    rw [hstep] at hres
    cases hres
    have hfail₁ : st₁.fail = false := hkeep.trans hfail
    rw [loop_cons es (h.fail.trans hfail) hstep']
    obtain ⟨hdied, hdied', htime, hps⟩ := ih halike hfail₁
      (fun e' he' => hpass e' (by simp [he'])) (hquiet.imp_right And.right)
    refine ⟨hdied, hdied', htime, ?_⟩
    simp only [List.flatMap_cons, pajes_append, List.filter_append]
    rw [hps]
    exact congrArg (· ++ _) houts

/-- **The flags filter the trace**, both at once. -/
theorem filtered_trace (noLinks : Bool) {cap : Option Nat} {es : List Event}
    (hpass : ∀ e ∈ es, passes (args.leaving false false) e = true)
    (hquiet : args.ignoreErrors = true ∨
      (convert (args.leaving false false) cap es).reports = []) :
    (convert (args.leaving noLinks noStates) cap es).trace =
      (convert (args.leaving false false) cap es).trace.filter (Paje.stays noLinks noStates) := by
  have hrounds : args.ignoreErrors = true ∨
      reports ((loop (args.leaving false false) (State.init cap) es).rounds.flatMap Prod.snd)
        = [] := by
    apply hquiet.imp_right
    intro hq
    rw [RunOf.reports, RunOf.outs, reports_append, List.append_eq_nil_iff] at hq
    exact hq.1
  obtain ⟨hdied, hdied', htime, hps⟩ := filtered_loop noStates
    (Alike.refl noLinks (State.init cap)) rfl hpass hrounds
  rw [RunOf.trace_eq, RunOf.trace_eq, RunOf.outs, RunOf.outs, pajes_append, pajes_append,
    List.filter_append]
  refine congrArg₂ (· ++ ·) hps ?_
  unfold convert
  rw [hdied, hdied', htime]
  split
  · simp [pajes, Paje.stays, Paje.isLink, Paje.isState]
  · rfl

/-- **Leaving out links or states only filters the output**: where no `assert` fires, and no
    receive misses its key or errors are ignored, each of the two flags removes its own events
    from the trace and changes nothing else, whatever the other one is. -/
theorem convert_filtered (args : Arguments) (cap : Option Nat) (es : List Event)
    (hpass : ∀ e ∈ es, passes (args.leaving false false) e = true)
    (hmiss : args.ignoreErrors = true ∨
      (convert (args.leaving false false) cap es).reports = []) (noLinks noStates : Bool) :
    (convert (args.leaving true noStates) cap es).trace =
        (convert (args.leaving false noStates) cap es).trace.filter (fun p => !p.isLink) ∧
      (convert (args.leaving noLinks true) cap es).trace =
        (convert (args.leaving noLinks false) cap es).trace.filter (fun p => !p.isState) ∧
      (convert (args.leaving true true) cap es).trace =
        (convert (args.leaving false false) cap es).trace.filter
          fun p => !p.isLink && !p.isState := by
  have hfilter := fun l s => @filtered_trace args s l cap es hpass hmiss
  refine ⟨?_, ?_, ?_⟩
  · rw [hfilter true noStates, hfilter false noStates, List.filter_filter]
    exact List.filter_congr fun p _ => by simp [Paje.stays]
  · rw [hfilter noLinks true, hfilter noLinks false, List.filter_filter]
    exact List.filter_congr fun p _ => by simp [Paje.stays, Bool.and_comm]
  · rw [hfilter true true]
    exact List.filter_congr fun p _ => by simp [Paje.stays]

/-- A message between two ranks, with the calls around it. -/
def sendAndReceive : List Event :=
  [.ofRecord 0 0 (rstEvent mpiInit), .ofRecord 0 1 (rstEventIl mpiSendIn 40 0),
   .ofRecord 0 2 (rstEventIil akyPtpSend 1 40 0), .ofRecord 0 3 (rstEvent mpiSendOut),
   .ofRecord 1 4 (rstEventI akyPtpRecv 0)]

theorem convert_filtered_sendAndReceive :
    (convert ⟨false, true, false⟩ (some 1009) sendAndReceive).trace =
      (convert ⟨false, false, false⟩ (some 1009) sendAndReceive).trace.filter
        fun p => !p.isLink :=
  (convert_filtered ⟨false, false, false⟩ (some 1009) sendAndReceive (by decide +kernel)
    (Or.inr (by decide +kernel)) false false).1

end Converter
end Akypuera

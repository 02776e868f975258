import Akypuera.Converter.Links

/-!
# What each round writes into the trace

The Paje events of a round depend on the event alone, up to the keys of its links and the
values of its states, and **all of them name the container of the event's rank**. `Wrote`
says this for each label group; the only exception is the root container, which the first
`MPI_INIT` of the stream creates along with its own.

`loop_wrote` is the same statement for a run: nothing but a missing key can end the loop
early, and a missing key leaves a report.
-/

set_option autoImplicit false

namespace Akypuera
namespace Converter

open CText Code Keys Fifo

/-- The container an event is about: for a link, the end the event is written at. -/
def Paje.container : Paje → Str
  | createContainer _ aliasName _ _ _ => aliasName
  | destroyContainer _ _ name => name
  | pushState _ container _ _ _ => container
  | popState _ container _ => container
  | startLink _ _ _ source _ _ _ => source
  | endLink _ _ _ dest _ _ => dest

/-- The events of links. -/
def Paje.isLink : Paje → Bool
  | startLink .. | endLink .. => true
  | _ => false

theorem mpiProcess_eq (id : UInt64) : mpiProcess id = "rank".toList ++ fmtNat id.toNat := by
  have hlen : (fmtNat id.toNat).length ≤ 20 := by
    have hlt := id.toNat_lt
    exact length_fmtNat_le (by decide) (by omega)
  have hrank : "rank".toList.length = 4 := by decide
  refine fit_of_length_lt ?_
  rw [List.length_append, akyDefaultStrSize]
  omega

/-- **Distinct ranks have distinct containers.** -/
theorem mpiProcess_inj {id id' : UInt64} (h : mpiProcess id = mpiProcess id') : id = id' := by
  rw [mpiProcess_eq, mpiProcess_eq] at h
  exact UInt64.toNat_inj.mp (fmtNat_inj (List.append_cancel_left h))

/-- No rank's container is the root. -/
theorem mpiProcess_ne_root (id : UInt64) : mpiProcess id ≠ sRoot := by
  rw [mpiProcess_eq]
  intro h
  have hsecond := congrArg (fun s => s[1]?) h
  have hrank : "rank".toList = ['r', 'a', 'n', 'k'] := by decide
  have hroot : sRoot = ['r', 'o', 'o', 't'] := by decide
  rw [hrank, hroot] at hsecond
  simp at hsecond

/-- The Paje events among what was written. -/
def pajes (outs : List Out) : List Paje :=
  outs.filterMap fun
    | .paje p => some p
    | .stderr _ => none

/-- The reports among it. -/
def reports (outs : List Out) : List Str :=
  outs.filterMap fun
    | .paje _ => none
    | .stderr text => some text

def RunOf.reports {σ : Type} (r : RunOf σ) : List Str := Converter.reports r.outs

@[simp] theorem pajes_append (outs outs' : List Out) :
    pajes (outs ++ outs') = pajes outs ++ pajes outs' := List.filterMap_append

theorem reports_append (outs outs' : List Out) :
    reports (outs ++ outs') = reports outs ++ reports outs' := List.filterMap_append

theorem RunOf.trace_eq (r : Run) : r.trace = pajes r.outs := rfl

/-- The events a round writes for its own rank. -/
def Wrote (args : Arguments) (e : Event) (ps : List Paje) : Prop :=
  let me := mpiProcess e.id1
  match arm e.type with
  | .ptpSend | .ptpRecv | .xt1Send _ | .oneTxSend _ | .xt1Recv _ | .oneTxRecv _ =>
      ∀ p ∈ ps, p.isLink = true ∧ p.container = me
  | .init => ps = [.createContainer e.timestamp me sProcess sRoot me]
  | .pushState | .pushStateSend | .pushStateRecv =>
      if args.noStates then ps = [] else ∃ v u, ps = [.pushState e.timestamp me sState v u]
  | .popState => ps = if args.noStates then [] else [.popState e.timestamp me sState]
  | .finalizeOut => ps = (if args.noStates then [] else [.popState e.timestamp me sState]) ++
      [.destroyContainer e.timestamp sProcess me]
  | .skip => ps = []

variable {args : Arguments} {e : Event}

/-- **A round writes about its own rank only.** -/
theorem Wrote.container {ps : List Paje} (h : Wrote args e ps) :
    ∀ p ∈ ps, p.container = mpiProcess e.id1 := by
  intro p hp
  unfold Wrote at h
  cases ha : arm e.type with
  | init =>
    simp only [ha] at h
    rw [h, List.mem_singleton] at hp
    rw [hp]; rfl
  | pushState | pushStateSend | pushStateRecv =>
    simp only [ha] at h
    split at h
    · rw [h] at hp; exact absurd hp (by simp)
    · obtain ⟨v, u, h⟩ := h
      rw [h, List.mem_singleton] at hp
      rw [hp]; rfl
  | popState =>
    simp only [ha] at h
    split at h
    · rw [h] at hp; exact absurd hp (by simp)
    · rw [h, List.mem_singleton] at hp
      rw [hp]; rfl
  | finalizeOut =>
    simp only [ha] at h
    rw [h] at hp
    rcases List.mem_append.mp hp with hp | hp
    · split at hp
      · exact absurd hp (by simp)
      · rw [List.mem_singleton.mp hp]; rfl
    · rw [List.mem_singleton.mp hp]; rfl
  | skip =>
    simp only [ha] at h
    rw [h] at hp; exact absurd hp (by simp)
  | _ =>
    simp only [ha] at h
    exact (h p hp).2

/-- A round that is not about links writes none. -/
theorem Wrote.no_links {ps : List Paje} (h : Wrote args e ps)
    (hlink : (arm e.type).isLink = false) : ps.filter Paje.isLink = [] := by
  unfold Wrote at h
  cases ha : arm e.type with
  | init =>
    simp only [ha] at h
    rw [h]; rfl
  | pushState | pushStateSend | pushStateRecv =>
    simp only [ha] at h
    split at h
    · rw [h]; rfl
    · obtain ⟨v, u, h⟩ := h
      rw [h]; rfl
  | popState | finalizeOut =>
    simp only [ha] at h
    rw [h]
    split <;> rfl
  | skip =>
    simp only [ha] at h
    rw [h]; rfl
  | _ => rw [ha] at hlink; exact absurd hlink (by simp [Arm.isLink])

/-- The link event that is written for a log entry. -/
def entryPaje (e : Event) : Entry Link Str → Paje
  | .push l key => startLink e l.1.keys key
  | .pop l ans => endLink e l.1.keys (ans.getD [])

theorem pajes_written {func : Str} (log : List (Entry Link Str)) :
    pajes (log.flatMap (written e func)) = log.map (entryPaje e) := by
  induction log with
  | nil => rfl
  | cons entry log ih =>
    rw [List.flatMap_cons, pajes_append, ih, List.map_cons]
    cases entry with
    | push l key => rfl
    | pop l ans => cases ans <;> rfl

theorem entryPaje_link (entry : Entry Link Str) :
    (entryPaje e entry).isLink = true ∧ (entryPaje e entry).container = mpiProcess e.id1 := by
  cases entry with
  | push l key =>
    show (startLink e l.1.keys key).isLink = true ∧ (startLink e l.1.keys key).container = _
    unfold startLink linksizemark
    split
    split <;> exact ⟨rfl, rfl⟩
  | pop l ans => exact ⟨rfl, rfl⟩

/-- A receive that misses its key is reported. -/
theorem reports_written {func : Str} {log : List (Entry Link Str)}
    (h : log.any Missed = true) : reports (log.flatMap (written e func)) ≠ [] := by
  obtain ⟨entry, hmem, hmiss⟩ := List.any_eq_true.mp h
  cases entry with
  | push l key => exact absurd hmiss (by simp [Missed])
  | pop l ans =>
    cases ans with
    | some key => exact absurd hmiss (by simp [Missed])
    | none =>
      obtain ⟨pre, post, rfl⟩ := List.append_of_mem hmem
      rw [List.flatMap_append, reports_append, List.flatMap_cons, reports_append]
      simp [written, reports]

/-- A receive that finds its key is not. -/
theorem reports_written_eq_nil {func : Str} {log : List (Entry Link Str)}
    (h : log.any Missed = false) : reports (log.flatMap (written e func)) = [] := by
  induction log with
  | nil => rfl
  | cons entry log ih =>
    rw [List.any_cons, Bool.or_eq_false_iff] at h
    rw [List.flatMap_cons, reports_append, ih h.2, List.append_nil]
    cases entry with
    | push l key => rfl
    | pop l ans =>
      cases ans with
      | some key => rfl
      | none => exact absurd h.1 (by simp [Missed])

/-- What a round leaves, apart from the key store. -/
structure Round (args : Arguments) (st : State) (e : Event) (res : State × List Out) : Prop where
  timestamp : res.1.timestamp = e.timestamp
  rootCreated : res.1.rootCreated = (st.rootCreated || decide (arm e.type = .init))
  fail : args.ignoreErrors = true ∨ reports res.2 = [] → res.1.fail = st.fail
  quiet : (arm e.type).isLink = false → reports res.2 = []
  trace : ∃ ps, Wrote args e ps ∧
    pajes res.2 = (if arm e.type = .init ∧ st.rootCreated = false then
      [.createContainer e.timestamp sRoot "ROOT".toList "0".toList sRoot] else []) ++ ps

theorem round_link (st : State) (h : (arm e.type).isLink = true) :
    Round args st e (if args.noLinks then ({ st with timestamp := e.timestamp }, [])
      else stepLinks args { st with timestamp := e.timestamp } e) := by
  have hinit : arm e.type ≠ .init := fun hi => by rw [hi] at h; exact absurd h (by decide)
  have hwrote : ∀ ps : List Paje, (∀ p ∈ ps, p.isLink = true ∧ p.container = mpiProcess e.id1) →
      Wrote args e ps := by
    intro ps hps
    unfold Wrote
    cases ha : arm e.type <;> simp [ha, Arm.isLink] at h ⊢ <;> simpa using hps
  cases hl : args.noLinks with
  | true =>
    exact ⟨rfl, by simp [hinit], fun _ => rfl, fun _ => rfl, [], hwrote [] (by simp),
      by simp [hinit, pajes]⟩
  | false =>
    rw [if_neg (by simp)]
    have hperf : Performed args e (reporter e) (individual e)
        { st with timestamp := e.timestamp } _ := stepLinks_performed _
    refine ⟨hperf.timestamp, ?_, ?_, fun hno => absurd (h.symm.trans hno) (by simp),
      pajes (stepLinks args { st with timestamp := e.timestamp } e).2, hwrote _ ?_,
      by simp [hinit]⟩
    · rw [hperf.rootCreated]
      simp [hinit]
    · intro hquiet
      rw [hperf.fail]
      cases hi : args.ignoreErrors with
      | true => simp
      | false =>
        have hnone := hquiet.resolve_left (by simp [hi])
        rw [hperf.outs] at hnone
        have hmiss : (linkLog st.keys (individual e)).any Missed = false := by
          by_contra hany
          exact reports_written (by simpa using hany) hnone
        simp [hmiss]
    · rw [hperf.outs, pajes_written]
      intro p hp
      obtain ⟨entry, _, rfl⟩ := List.mem_map.mp hp
      exact entryPaje_link entry

theorem round_init (st : State) (h : arm e.type = .init) :
    Round args st e (createContainers { st with timestamp := e.timestamp } e) := by
  have hwrote : Wrote args e
      [.createContainer e.timestamp (mpiProcess e.id1) sProcess sRoot (mpiProcess e.id1)] := by
    unfold Wrote
    rw [h]
  cases hroot : st.rootCreated with
  | true =>
    refine ⟨?_, ?_, ?_, ?_, _, hwrote, ?_⟩ <;> simp [createContainers, hroot, pajes, reports]
  | false =>
    refine ⟨?_, ?_, ?_, ?_, _, hwrote, ?_⟩ <;> simp [createContainers, hroot, pajes, reports, h]

/-- A round that writes `outs` and changes nothing but the time. -/
theorem round_plain (st : State) {outs : List Out} {ps : List Paje} (h : arm e.type ≠ .init)
    (hps : pajes outs = ps) (hquiet : reports outs = []) (hwrote : Wrote args e ps) :
    Round args st e ({ st with timestamp := e.timestamp }, outs) :=
  ⟨rfl, by simp [h], fun _ => rfl, fun _ => hquiet, ps, hwrote, by simp [h, hps]⟩

/-- The state an event pushes, if the process survives it. -/
theorem statePushed_eq (hpush : (arm e.type).pushes = true) {out : Out}
    (h : statePushed e = some out) :
    ∃ v u, out = .paje (.pushState e.timestamp (mpiProcess e.id1) sState v u) := by
  obtain ⟨value, hvalue⟩ : ∃ value, stateValue e = some value := by
    have hname := nameGet_isSome hpush
    simpa [stateValue, Option.isSome_iff_exists] using hname
  unfold statePushed at h
  cases ha : arm e.type with
  | pushState =>
    simp only [ha, pushState, hvalue, Option.bind_eq_bind, Option.bind_some] at h
    split at h <;> (cases h; exact ⟨_, _, rfl⟩)
  | pushStateSend =>
    simp only [ha, pushStateSend, hvalue, Option.bind_eq_bind, Option.bind_some] at h
    simp only [guard] at h
    split at h
    · split at h
      · cases h; exact ⟨_, _, rfl⟩
      · exact absurd h (by simp)
    · exact absurd h (by simp)
  | pushStateRecv =>
    simp only [ha, pushStateRecv, hvalue, Option.bind_eq_bind, Option.bind_some] at h
    simp only [guard] at h
    split at h
    · cases h; exact ⟨_, _, rfl⟩
    · exact absurd h (by simp)
  | _ => rw [ha] at hpush; exact absurd hpush (by simp [Arm.pushes])

/-- **Every round is as described.** -/
theorem step_round (st : State) (hp : passes args e = true) :
    ∃ res, step args st e = some res ∧ Round args st e res := by
  cases hlink : (arm e.type).isLink with
  | true => exact ⟨_, step_link st hlink, round_link st hlink⟩
  | false =>
    unfold step
    cases ha : arm e.type with
    | init => exact ⟨_, rfl, round_init st ha⟩
    | pushState | pushStateSend | pushStateRecv =>
      have hpush : (arm e.type).pushes = true := by rw [ha]; rfl
      cases hs : args.noStates with
      | true =>
        exact ⟨_, rfl, round_plain st (by simp [ha]) rfl rfl (by simp [Wrote, ha, hs, pajes])⟩
      | false =>
        obtain ⟨out, hout⟩ : ∃ out, statePushed e = some out := by
          simpa [passes, hpush, hs, Option.isSome_iff_exists] using hp
        obtain ⟨v, u, rfl⟩ := statePushed_eq hpush hout
        refine ⟨({ st with timestamp := e.timestamp }, [_]), by simp only [hout]; rfl,
          round_plain st (by simp [ha]) rfl rfl ?_⟩
        simp [Wrote, ha, hs, pajes]
    | popState | finalizeOut | skip =>
      refine ⟨_, rfl, round_plain st (by simp [ha]) rfl ?_ ?_⟩
      · cases hs : args.noStates <;> rfl
      · cases hs : args.noStates <;> simp [Wrote, ha, hs, pajes, popState]
    | _ => rw [ha] at hlink; exact absurd hlink (by simp [Arm.isLink])

/-! ## Runs -/

/-- **A run writes about one rank at a time.** After the root container is there, and as long
    as no process dies and no missing key ends the loop, every event is taken and the trace is
    what the rounds wrote for their ranks, in order. -/
theorem loop_wrote (es : List Event) {st : State} (hpass : ∀ e ∈ es, passes args e = true)
    (hfail : st.fail = false) (hroot : st.rootCreated = true)
    (hquiet : args.ignoreErrors = true ∨
      reports ((loop args st es).rounds.flatMap Prod.snd) = []) :
    (loop args st es).died = false ∧
      (loop args st es).state.timestamp = (es.getLast?.map Event.timestamp).getD st.timestamp ∧
      ∃ owns, List.Forall₂ (Wrote args) es owns ∧
        pajes ((loop args st es).rounds.flatMap Prod.snd) = owns.flatten := by
  induction es generalizing st with
  | nil => exact ⟨rfl, rfl, [], List.Forall₂.nil, rfl⟩
  | cons e es ih =>
    obtain ⟨⟨st', outs⟩, hstep, hround⟩ := step_round st (hpass e (by simp))
    rw [loop_cons es hfail hstep] at hquiet ⊢
    simp only [List.flatMap_cons, reports_append, List.append_eq_nil_iff] at hquiet
    have hfail' : st'.fail = false :=
      (hround.fail (hquiet.imp_right And.left)).trans hfail
    have hroot' : st'.rootCreated = true := by rw [hround.rootCreated, hroot]; rfl
    obtain ⟨hdied, htime, owns, howns, htrace⟩ :=
      ih (fun e' he' => hpass e' (by simp [he'])) hfail' hroot' (hquiet.imp_right And.right)
    obtain ⟨ps, hwrote, hps⟩ := hround.trace
    have hps' : pajes outs = ps := by simpa [hroot] using hps
    refine ⟨hdied, ?_, ps :: owns, List.Forall₂.cons hwrote howns, ?_⟩
    · rw [show ({ loop args st' es with rounds := (e, outs) :: (loop args st' es).rounds } :
        Run).state = (loop args st' es).state from rfl, htime, hround.timestamp]
      cases es with
      | nil => rfl
      | cons e' es =>
        obtain ⟨last, hlast⟩ : ∃ last, (e' :: es).getLast? = some last :=
          ⟨_, List.getLast?_eq_some_getLast (List.cons_ne_nil e' es)⟩
        rw [List.getLast?_cons_cons, hlast]
        rfl
    · simp [hps', htrace]

end Converter
end Akypuera

import Akypuera.Converter.Output

/-!
# What a run shows, links apart

A round's containers and states depend on its event alone: `shown` computes them, values and extra
fields included. So the trace of a run that is not cut short is, links apart, **the root around what
each event shows** (`loop_shown`, `convert_shown`); in which order the events of different ranks
come decides nothing else.
-/

set_option autoImplicit false

namespace Akypuera
namespace Converter

open CText Code Keys Fifo

/-- The containers and states that a round writes for its rank. -/
def shown (args : Arguments) (e : Event) : List Paje :=
  let me := mpiProcess e.id1
  match arm e.type with
  | .init => [.createContainer e.timestamp me sProcess sRoot me]
  | .pushState | .pushStateSend | .pushStateRecv =>
      if args.noStates then [] else pajes (statePushed e).toList
  | .popState => if args.noStates then [] else [.popState e.timestamp me sState]
  | .finalizeOut => (if args.noStates then [] else [.popState e.timestamp me sState]) ++
      [.destroyContainer e.timestamp sProcess me]
  | _ => []

/-- Links apart. -/
def plain (ps : List Paje) : List Paje := ps.filter fun p => !p.isLink

@[simp] theorem plain_append (ps qs : List Paje) : plain (ps ++ qs) = plain ps ++ plain qs :=
  List.filter_append ps qs

theorem plain_eq_nil {ps : List Paje} (h : ∀ p ∈ ps, p.isLink = true) : plain ps = [] :=
  List.filter_eq_nil_iff.mpr fun p hp => by simp [h p hp]

/-- The root, where a round creates it. -/
def rootOf (st : State) (e : Event) : List Paje :=
  if arm e.type = .init ∧ st.rootCreated = false then
    [.createContainer e.timestamp sRoot "ROOT".toList "0".toList sRoot] else []

/-- What a round wrote for its rank: what its event shows, and one link for each individual
    operation. -/
structure Shows (args : Arguments) (e : Event) (ps : List Paje) : Prop where
  wrote : Wrote args e ps
  plain : Converter.plain ps = shown args e
  links : ∃ log : List (Entry Link Str), ps.filter Paje.isLink = log.map (entryPaje e) ∧
    log.map Entry.req = if args.noLinks then [] else individual e

variable {args : Arguments} {st st' : State} {e : Event} {outs : List Out}

/-- A pushed state is one event, and no link. -/
theorem plain_statePushed (hpush : (arm e.type).pushes = true) {out : Out}
    (h : statePushed e = some out) : Converter.plain (pajes [out]) = pajes [out] := by
  obtain ⟨v, u, rfl⟩ := statePushed_eq hpush h
  rfl

/-- The links of a round are those of its individual operations. -/
theorem links_of_wrote (h : step args st e = some (st', outs)) {ps : List Paje}
    (hwrote : Wrote args e ps) (hps : pajes outs = rootOf st e ++ ps) :
    ∃ log : List (Entry Link Str), ps.filter Paje.isLink = log.map (entryPaje e) ∧
      log.map Entry.req = if args.noLinks then [] else individual e := by
  cases hlink : (arm e.type).isLink with
  | false =>
    refine ⟨[], hwrote.no_links hlink, ?_⟩
    rw [individual_eq_nil hlink]
    cases args.noLinks <;> rfl
  | true =>
    have hinit : arm e.type ≠ .init := fun hi => by rw [hi] at hlink; exact absurd hlink (by decide)
    obtain ⟨log, hlog, hreq⟩ := pajes_of_link hlink h
    refine ⟨log, ?_, hreq⟩
    rw [rootOf, if_neg fun hi => hinit hi.1, List.nil_append] at hps
    rw [← hps, hlog, List.filter_eq_self]
    intro p hp
    obtain ⟨entry, -, rfl⟩ := List.mem_map.mp hp
    exact (entryPaje_link entry).1

/-- **A round shows what its event does.** -/
theorem step_shows (h : step args st e = some (st', outs)) :
    ∃ ps, Shows args e ps ∧ pajes outs = rootOf st e ++ ps := by
  obtain ⟨res, hres, hround⟩ := step_round st (passes_of_step h)
  obtain rfl := Option.some.inj (h.symm.trans hres)
  obtain ⟨ps, hwrote, hps⟩ := hround.trace
  refine ⟨ps, ⟨hwrote, ?_, links_of_wrote h hwrote hps⟩, hps⟩
  cases ha : arm e.type with
  | init =>
    unfold Wrote at hwrote
    simp only [ha] at hwrote
    rw [hwrote, shown, ha]
    rfl
  | popState | finalizeOut =>
    unfold Wrote at hwrote
    simp only [ha] at hwrote
    rw [hwrote, shown, ha]
    cases args.noStates <;> rfl
  | skip =>
    unfold Wrote at hwrote
    simp only [ha] at hwrote
    rw [hwrote, shown, ha]
    rfl
  | pushState | pushStateSend | pushStateRecv =>
    have hpush : (arm e.type).pushes = true := by rw [ha]; rfl
    rw [shown, ha]
    unfold step at h
    simp only [ha] at h
    cases hs : args.noStates with
    | true =>
      unfold Wrote at hwrote
      simp only [ha, hs, if_true] at hwrote
      rw [hwrote]
      rfl
    | false =>
      simp only [hs, Bool.false_eq_true, if_false] at h ⊢
      obtain ⟨out, hout, heq⟩ := Option.map_eq_some_iff.mp h
      have hps' : ps = pajes [out] := by
        have hnone : ¬ (arm e.type = .init ∧ st.rootCreated = false) := by simp [ha]
        rw [if_neg hnone, List.nil_append] at hps
        rw [← hps, ← congrArg Prod.snd heq]
      rw [hps', hout, plain_statePushed hpush hout]
      rfl
  | _ =>
    have hlinks : ∀ p ∈ ps, p.isLink = true := by
      unfold Wrote at hwrote
      simp only [ha] at hwrote
      exact fun p hp => (hwrote p hp).1
    rw [plain_eq_nil hlinks, shown, ha]

/-! ## Runs -/

/-- **A run shows what its events do**, once the root is there. -/
theorem loop_shows (es : List Event) {st : State} (hpass : ∀ e ∈ es, passes args e = true)
    (hfail : st.fail = false) (hroot : st.rootCreated = true)
    (hquiet : args.ignoreErrors = true ∨
      reports ((loop args st es).rounds.flatMap Prod.snd) = []) :
    (loop args st es).died = false ∧
      (loop args st es).state.timestamp = (es.getLast?.map Event.timestamp).getD st.timestamp ∧
      ∃ owns, List.Forall₂ (Shows args) es owns ∧
        pajes ((loop args st es).rounds.flatMap Prod.snd) = owns.flatten := by
  obtain ⟨hdied, htime, -⟩ := loop_wrote es hpass hfail hroot hquiet
  refine ⟨hdied, htime, ?_⟩
  clear hdied htime
  induction es generalizing st with
  | nil => exact ⟨[], List.Forall₂.nil, rfl⟩
  | cons e es ih =>
    obtain ⟨⟨st', outs⟩, hstep, hround⟩ := step_round st (hpass e (by simp))
    rw [loop_cons es hfail hstep] at hquiet ⊢
    simp only [List.flatMap_cons, reports_append, List.append_eq_nil_iff] at hquiet
    have hfail' : st'.fail = false :=
      (hround.fail (hquiet.imp_right And.left)).trans hfail
    have hroot' : st'.rootCreated = true := by rw [hround.rootCreated, hroot]; rfl
    obtain ⟨owns, howns, htrace⟩ :=
      ih (fun e' he' => hpass e' (by simp [he'])) hfail' hroot' (hquiet.imp_right And.right)
    obtain ⟨ps, hshows, hps⟩ := step_shows hstep
    rw [rootOf, if_neg (by simp [hroot]), List.nil_append] at hps
    exact ⟨ps :: owns, List.Forall₂.cons hshows howns, by simp [hps, htrace]⟩

/-- A run that is not cut short takes every event. -/
theorem loop_rounds (es : List Event) {st : State} (hpass : ∀ e ∈ es, passes args e = true)
    (hfail : st.fail = false) (hquiet : args.ignoreErrors = true ∨
      reports ((loop args st es).rounds.flatMap Prod.snd) = []) :
    (loop args st es).rounds.map Prod.fst = es := by
  induction es generalizing st with
  | nil => rfl
  | cons e es ih =>
    obtain ⟨⟨st', outs⟩, hstep, hround⟩ := step_round st (hpass e (by simp))
    rw [loop_cons es hfail hstep] at hquiet ⊢
    simp only [List.flatMap_cons, reports_append, List.append_eq_nil_iff] at hquiet
    exact congrArg (e :: ·) (ih (fun e' h => hpass e' (by simp [h]))
      ((hround.fail (hquiet.imp_right And.left)).trans hfail) (hquiet.imp_right And.right))

/-- **The whole trace**, when the first event is an `MPI_INIT` and the run is not cut short: the
    root around what the rounds wrote for their ranks. -/
theorem convert_shows (args : Arguments) (size : Option Nat) {e : Event} {es : List Event}
    (hinit : arm e.type = .init) (hpass : ∀ x ∈ e :: es, passes args x = true)
    (htime : ∀ x ∈ e :: es, 0 ≤ x.timestamp)
    (hquiet : args.ignoreErrors = true ∨ (convert args size (e :: es)).reports = []) :
    (convert args size (e :: es)).died = false ∧
      ∃ owns, List.Forall₂ (Shows args) (e :: es) owns ∧
        (convert args size (e :: es)).trace =
          .createContainer e.timestamp sRoot "ROOT".toList "0".toList sRoot :: owns.flatten ++
            [.destroyContainer ((e :: es).getLast (List.cons_ne_nil e es)).timestamp
              "ROOT".toList sRoot] := by
  obtain ⟨⟨st, outs⟩, hstep, hround⟩ := step_round (State.init size) (hpass e (by simp))
  have hrun : convert args size (e :: es) = { loop args st es with
      rounds := (e, outs) :: (loop args st es).rounds } := loop_cons es rfl hstep
  have hquiet' : args.ignoreErrors = true ∨
      reports outs = [] ∧ reports ((loop args st es).rounds.flatMap Prod.snd) = [] := by
    apply hquiet.imp_right
    intro h
    rw [hrun] at h
    simp only [RunOf.reports, RunOf.outs, List.flatMap_cons, reports_append,
      List.append_eq_nil_iff] at h
    exact h.1
  have hfail : st.fail = false := hround.fail (hquiet'.imp_right And.left)
  have hroot : st.rootCreated = true := by rw [hround.rootCreated]; simp [hinit]
  obtain ⟨hdied, hlast, owns, howns, htrace⟩ :=
    loop_shows es (fun e' h => hpass e' (by simp [h])) hfail hroot (hquiet'.imp_right And.right)
  obtain ⟨ps, hshows, hps⟩ := step_shows hstep
  rw [rootOf, if_pos ⟨hinit, rfl⟩] at hps
  have hlast' : (loop args st es).state.timestamp =
      ((e :: es).getLast (List.cons_ne_nil e es)).timestamp := by
    rw [hlast, hround.timestamp]
    cases es with
    | nil => rfl
    | cons e' es =>
      rw [List.getLast_cons_cons, List.getLast?_eq_some_getLast (List.cons_ne_nil _ _)]
      rfl
  have htime' : 0 ≤ (loop args st es).state.timestamp := by
    rw [hlast']
    exact htime _ (List.getLast_mem _)
  refine ⟨by rw [hrun]; exact hdied, ps :: owns, List.Forall₂.cons hshows howns, ?_⟩
  rw [hrun, RunOf.trace_eq, RunOf.outs, if_pos ⟨hdied, htime'⟩, pajes_append, List.flatMap_cons,
    pajes_append, hps, htrace, hlast']
  simp [pajes]

/-- What the rounds wrote, links apart. -/
theorem plain_shows {es : List Event} {owns : List (List Paje)}
    (h : List.Forall₂ (Shows args) es owns) : plain owns.flatten = es.flatMap (shown args) := by
  induction h with
  | nil => rfl
  | cons hshows _ ih => rw [List.flatten_cons, plain_append, hshows.plain, ih, List.flatMap_cons]

end Converter
end Akypuera

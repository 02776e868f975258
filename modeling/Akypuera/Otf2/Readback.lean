import Akypuera.Otf2.Accepted

/-!
# The OTF2 trace, read back

Where the events of each location are the entries and returns of calls, **a reader of the converted
trace gets these calls back** (`locations_read`): with the names of the regions, in seconds since
the first event that is not left out, and without the calls that are, whose inner calls move up.
The tree of the nodes is read as it was defined.
-/

set_option autoImplicit false

namespace Akypuera
namespace Otf2

open CText Scene Actors Double

variable {args : Arguments} {names : Names} {st : State} {rs : List Record} {l : Location}
  {locations : List Location} {rounds : List (Definition × List Paje)} {timerResolution : UInt64}
  {a : Archive} {self : UInt64}

/-- A region is entered. -/
def entering (self : UInt64) (region : UInt32) (time : UInt64) : List Record :=
  [.enter self time region]

/-- A region is left. -/
def leaving (self : UInt64) (region : UInt32) (time : UInt64) : List Record :=
  [.leave self time region]

/-- The events of a location. -/
def recordsOf (self : UInt64) (rs : List Record) : List Record :=
  rs.filter fun r => r.location = self

/-- The calls that are shown, with their names and times. -/
def shownCalls (args : Arguments) (names : Names) (time : UInt64 → ℚ) (calls : Calls UInt64 UInt32) :
    Calls ℚ Str :=
  if args.states then
    (calls.keep fun r => (names.stateName r).any args.passes).map time
      fun r => (names.stateName r).getD []
  else .done

/-- The acts of a location are those of its events. -/
theorem actsBy_eventActs (args : Arguments) (names : Names) (timerResolution : UInt64)
    (rs : List Record) (self : UInt64) :
    actsBy self (eventActs args names timerResolution rs) =
      ((recordsOf self rs).filterMap (Record.act args names
        (seconds timerResolution (firstTime args names rs)))).map Prod.snd := by
  refine actsBy_filterMap fun r _ e he => ?_
  rw [(Record.mark_act he).1]

/-- **What is shown of calls.** -/
theorem marks_shown (args : Arguments) (names : Names) (time : UInt64 → ℚ)
    (calls : Calls UInt64 UInt32) (self : UInt64) :
    (((calls.render (entering self) (leaving self)).filterMap (Record.act args names time)).map
      Prod.snd).filterMap Act.mark = (shownCalls args names time calls).marks := by
  rw [← List.filterMap_eq_map, List.filterMap_filterMap, List.filterMap_filterMap,
    Calls.filterMap_render, shownCalls]
  cases hs : args.states with
  | false =>
    rw [if_neg Bool.false_ne_true]
    have hnone : ∀ r : Record, r.act args names time = none := fun r => by simp [Record.act, hs]
    simp only [entering, leaving, List.filterMap_cons, List.filterMap_nil, hnone, Option.bind_none]
    exact Calls.render_nil calls
  | true =>
    rw [if_pos rfl, Calls.marks, Calls.render_map, Calls.render_keep]
    refine Calls.render_congr fun r _ t => ?_
    cases hname : names.stateName r with
    | none => simp [entering, leaving, Record.act, Record.region, hname]
    | some text =>
      cases hp : args.passes text <;>
        simp [entering, leaving, Record.act, Record.region, hs, hname, hp, Act.mark]

/-! ## Times -/

theorem seconds_mono (timerResolution first : UInt64) {t t' : UInt64} (h : t ≤ t') :
    seconds timerResolution first t ≤ seconds timerResolution first t' := by
  have hcast : toDouble t.toNat ≤ toDouble t'.toNat :=
    toDouble_mono (Nat.cast_le.mpr (UInt64.le_iff_toNat_le.mp h))
  have hdiff := toDouble_mono (sub_le_sub_right hcast (toDouble first.toNat))
  exact toDouble_mono (div_le_div_of_nonneg_right hdiff (toDouble_nonneg (Nat.cast_nonneg _)))

theorem seconds_self (timerResolution first : UInt64) : seconds timerResolution first first = 0 := by
  rw [seconds, sub_self, toDouble_zero, zero_div, toDouble_zero]

/-- The times that are written are some of those of the events that are not left out. -/
theorem times_shown (args : Arguments) (names : Names) (timerResolution : UInt64)
    (rs : List Record) (self : UInt64) :
    ((shownMarks args names timerResolution rs self).map Calls.Mark.time).Sublist
      ((keptRecords args names rs).map fun r =>
        seconds timerResolution (firstTime args names rs) r.time) := by
  have hmark : ∀ r : Record, ((r.act args names
      (seconds timerResolution (firstTime args names rs))).bind fun e => e.2.mark).map
        Calls.Mark.time = if args.states && r.kept args names then
          some (seconds timerResolution (firstTime args names rs) r.time) else none := by
    intro r
    cases hs : args.states with
    | false => simp [Record.act, hs]
    | true =>
      cases hname : names.stateName r.region with
      | none => simp [Record.act, Record.kept, hs, hname]
      | some text =>
        cases hp : args.passes text with
        | false => simp [Record.act, Record.kept, hs, hname, hp]
        | true => cases r <;> simp_all [Record.act, Record.kept, Act.mark, Calls.Mark.time,
            Record.time, Record.region]
  have htimes : (shownMarks args names timerResolution rs self).map Calls.Mark.time =
      ((recordsOf self rs).filter fun r => args.states && r.kept args names).map fun r =>
        seconds timerResolution (firstTime args names rs) r.time := by
    rw [shownMarks, actsBy_eventActs, List.filterMap_map, List.filterMap_filterMap,
      List.map_filterMap, ← List.filterMap_eq_map, List.filterMap_filter]
    exact List.filterMap_congr fun r _ => (hmark r).trans (by simp)
  rw [htimes, recordsOf, List.filter_filter]
  refine List.Sublist.map _ (List.monotone_filter_right rs fun r hr => ?_)
  exact (Bool.and_eq_true_iff.mp (Bool.and_eq_true_iff.mp hr).1).2

/-- **Calls are shown in time**: after the birth of their location and before its death. -/
theorem timed_shown (hordered : rs.Pairwise fun r r' => r.time ≤ r'.time)
    (hkept : ∃ r ∈ rs, r.kept args names = true) {calls : Calls ℚ Str}
    (hcalls : shownMarks args names timerResolution rs self = calls.marks) :
    calls.Timed 0 (lastTime args names timerResolution rs) := by
  obtain ⟨r, hr, hk⟩ := hkept
  have hne : keptRecords args names rs ≠ [] := List.ne_nil_of_mem (List.mem_filter.mpr ⟨hr, hk⟩)
  have hsub := times_shown args names timerResolution rs self
  rw [hcalls, Calls.map_time_marks] at hsub
  refine Calls.timed_of_sublist hsub (List.pairwise_map.mpr
    ((hordered.sublist List.filter_sublist).imp (seconds_mono _ _))) ?_ ?_
  · -- the first is the one that times are counted from
    rw [List.head?_map, firstTime, List.head?_eq_some_head hne]
    exact congrArg some (seconds_self _ _)
  · rw [List.getLast?_map, lastTime, List.getLast?_eq_some_getLast hne]
    rfl

/-! ## The whole trace -/

/-- What is read of a location that is over. -/
theorem life_location (w : World Str ℚ) (type : Str) (parent : UInt64 → Str) (self : UInt64)
    (calls : Calls ℚ Str) (died : ℚ) :
    (cast parent).life (threadWorld w type).types self (.gone 0 calls died) =
      .gone ⟨sThread, parent self, threadStr self, 0, [], calls⟩ died :=
  congrArg (fun c => Scene.Life.gone ⟨sThread, parent self, threadStr self, 0, [], c⟩ died)
    (Calls.map_id calls)

namespace Archive

/-- No location is called like a place of the tree. -/
theorem Apart.not_exists_alias (h : a.Apart) {p : Spot Str} (hp : p ∈ a.spots) :
    ¬ ∃ self, (cast a.parent).aliasOf self = p.name := by
  rintro ⟨self, hself⟩
  exact (h.names p hp).2 self hself.symm

/-- **Every location is there from the start to the end**, with the calls that are shown of it. -/
theorem run_whole (h : a.Apart)
    (hdefined : ∀ r ∈ rs, r.location ∈ a.stream.locations.map Location.self)
    {shown : UInt64 → Calls ℚ Str}
    (hmarks : ∀ self, shownMarks args names timerResolution rs self = (shown self).marks) :
    Actors.run (fun _ => .absent) (a.acts args names timerResolution rs) =
      some fun self => if self ∈ a.stream.locations.map Location.self then
        .gone 0 (shown self) (lastTime args names timerResolution rs) else .absent := by
  refine run_iff.mpr fun self => ?_
  rw [actsBy_acts h]
  split
  · exact Stage.run_whole (fun x hx => (mem_eventActs hx).1) (hmarks self)
  · next hself =>
    have hnone : recordsOf self rs = [] := by
      refine List.filter_eq_nil_iff.mpr fun r hr heq => hself ?_
      rw [← of_decide_eq_true heq]
      exact hdefined r hr
    rw [actsBy_eventActs, hnone]
    rfl

/-- **What is shown of an OTF2 trace**, with any flags but `--dummy`: when classes are at one place
    and names do not clash, and the events of each location are those of calls, in any
    interleaving. -/
theorem locations_read (args : Arguments) (hdummy : args.dummy = false) (ho : a.Ordered)
    (h : a.Apart) (hu : a.Uniform) (hsome : a.stream.locations ≠ []) {timerResolution : UInt64}
    (hres : timerResolution ≠ 0)
    (hrun : run args .default State.init a.definitions = some (st, rounds))
    {calls : UInt64 → Calls UInt64 UInt32}
    (hcalls : ∀ self, (calls self).render (entering self) (leaving self) = recordsOf self rs)
    (hdefined : ∀ r ∈ rs, r.location ∈ a.stream.locations.map Location.self)
    (hnamed : ∀ r ∈ rs, (st.names.stateName r.region).isSome = true)
    (hkept : ∃ r ∈ rs, r.kept args st.names = true) :
    let shown := fun self => shownCalls args st.names
      (seconds timerResolution (firstTime args st.names rs)) (calls self)
    let last := lastTime args st.names timerResolution rs
    ∃ out w, lines args timerResolution a.definitions rs = some out ∧
      (World.start sZero).run out = some w ∧
      (∀ l ∈ a.stream.locations, w.life (threadStr l.self) =
        .gone ⟨sThread, a.above l, threadStr l.self, 0, [], shown l.self⟩ last) ∧
      (∀ p ∈ a.spots, w.life p.name = .alive (Box.fresh p.type p.parent p.name 0)) ∧
      ((rs.Pairwise fun r r' => r.time ≤ r'.time) →
        ∀ l ∈ a.stream.locations, (shown l.self).Timed 0 last) := by
  intro shown last
  obtain ⟨l, locations, hlocations⟩ := List.exists_cons_of_ne_nil hsome
  have hlines := lines_eq hdummy ho h hlocations hres hrun hnamed hkept
  obtain ⟨hlen, -, -⟩ := definitions_lines hdummy ho hlocations h.not_mem_classes hrun
  obtain ⟨w, hw, hrest⟩ := exists_planted h ho hlocations hlen hu.classes
  have hmarks : ∀ self, shownMarks args st.names timerResolution rs self = (shown self).marks := by
    intro self
    rw [shownMarks, actsBy_eventActs, ← hcalls, marks_shown]
  have hfits := hu.fits h ho hlocations hw
  refine ⟨_, _, hlines, by rw [hrest, run_acts hu h ho hlocations hw,
    run_whole h hdefined hmarks]; rfl, ?_, ?_, ?_⟩
  · intro l' hl'
    have hlife := Cast.life_put (k := cast a.parent) (w := threadWorld w (a.classAbove l)) hfits.inj
      (fun self => if self ∈ a.stream.locations.map Location.self then
        .gone 0 (shown self) last else .absent) l'.self
    rw [if_pos (List.mem_map_of_mem hl'), life_location, h.parent_eq hl'] at hlife
    exact hlife
  · intro p hp
    rw [Cast.life_put_of_ne (h.not_exists_alias hp)]
    exact hw.life p hp
  · exact fun hordered l' _ => timed_shown hordered hkept (hmarks l'.self)

end Archive

/-- One location, and a region that is left out. -/
def onePlace : Archive where
  before := twoPlaces.before ++ [.string 5 "MPI_Send".toList]
  stream := { twoPlaces.stream with locations := [⟨3, 2, 1, 0⟩] }
  after := [.region 0 4, .region 1 5]

/-- A message is sent within `main`, which is left out. -/
def sending : Calls UInt64 UInt32 := .call 0 5 9 (.call 1 6 8 .done .done) .done

theorem onePlace_ordered : onePlace.Ordered :=
  ⟨by decide, ⟨⟨by decide, by decide⟩, by decide, by decide, by decide, by decide⟩⟩

theorem onePlace_apart : onePlace.Apart where
  nodes := by decide
  names := by
    have hnames : ∀ p ∈ onePlace.spots, p.name ≠ sZero ∧ p.name.head? ≠ some 't' := by decide
    exact fun p hp => ⟨(hnames p hp).1, ne_threadStr (hnames p hp).2⟩
  types := by decide
  locations := by decide

theorem onePlace_uniform : onePlace.Uniform := ⟨by decide, by decide⟩

/-- `MPI_Send` alone is shown, from 0 to 2. -/
theorem locations_read_onePlace : ∃ out w,
    lines ⟨false, false, true⟩ 1 onePlace.definitions
      (sending.render (entering 3) (leaving 3)) = some out ∧
    (World.start sZero).run out = some w ∧
    w.life (threadStr 3) = .gone ⟨sThread, "n".toList, threadStr 3, 0, [],
      .call "MPI_Send".toList 0 2 .done .done⟩ 2 := by
  have hnamed : (run ⟨false, false, true⟩ .default State.init onePlace.definitions).bind
      (fun p => some (p.1.names.stateName 0, p.1.names.stateName 1)) =
        some (some "main".toList, some "MPI_Send".toList) := by decide
  obtain ⟨⟨st, rounds⟩, hrun, hname⟩ := Option.bind_eq_some_iff.mp hnamed
  obtain ⟨hmain, hsend⟩ := Prod.mk.inj (Option.some.inj hname)
  have hcalls : ∀ self, ((if self = 3 then sending else .done).render (entering self)
      (leaving self)) = recordsOf self (sending.render (entering 3) (leaving 3)) := by
    intro self
    by_cases hself : self = 3
    · subst hself
      decide
    · simp [hself, recordsOf, sending, Calls.render, entering, leaving, Record.location,
        Ne.symm hself]
  have hdropped : (st.names.stateName 0).any (Arguments.passes ⟨false, false, true⟩) = false := by
    rw [hmain]
    decide
  have hpasses : (st.names.stateName 1).any (Arguments.passes ⟨false, false, true⟩) = true := by
    rw [hsend]
    decide
  have hstop : seconds 1 6 8 = 2 := by decide +kernel
  have hkept : keptRecords ⟨false, false, true⟩ st.names (sending.render (entering 3) (leaving 3)) =
      [.enter 3 6 1, .leave 3 8 1] := by
    simp [keptRecords, Record.kept, sending, Calls.render, entering, leaving, Record.region,
      hdropped, hpasses]
  have hfirst : firstTime ⟨false, false, true⟩ st.names
      (sending.render (entering 3) (leaving 3)) = 6 := by
    rw [firstTime, hkept]
    rfl
  have hlast : lastTime ⟨false, false, true⟩ st.names 1
      (sending.render (entering 3) (leaving 3)) = 2 := by
    rw [lastTime, hfirst, hkept]
    exact hstop
  have hshown : shownCalls ⟨false, false, true⟩ st.names (seconds 1 6) sending =
      .call "MPI_Send".toList 0 2 .done .done := by
    have hkeep : (sending.keep fun r =>
        (st.names.stateName r).any (Arguments.passes ⟨false, false, true⟩)) =
          .call 1 6 8 .done .done := by
      simp only [sending, Calls.keep, hdropped, hpasses, Bool.false_eq_true, if_false, if_true,
        Calls.append_done]
    rw [shownCalls, if_pos (by decide), hkeep, Calls.map, seconds_self, hstop, hsend]
    rfl
  obtain ⟨out, w, hlines, hread, hlife, -⟩ := Archive.locations_read ⟨false, false, true⟩ rfl
    onePlace_ordered onePlace_apart onePlace_uniform (by decide) (by decide : (1 : UInt64) ≠ 0)
    hrun hcalls (by decide)
    (by simp [sending, Calls.render, entering, leaving, Record.region, hmain, hsend])
    ⟨.enter 3 6 1, by decide, hpasses⟩
  refine ⟨out, w, hlines, hread, (hlife ⟨3, 2, 1, 0⟩ (by decide)).trans ?_⟩
  have habove : onePlace.above ⟨3, 2, 1, 0⟩ = "n".toList := by decide
  simp only [hfirst, hlast, habove, if_true, hshown]

end Otf2
end Akypuera

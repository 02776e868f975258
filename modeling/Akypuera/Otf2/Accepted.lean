import Akypuera.Otf2.Planted

/-!
# When the OTF2 trace is accepted

The containers of the nodes are a tree, and the types that the first location declares are for all
locations. So the converted trace is accepted exactly when **a class is always under the same class,
all locations are on nodes of one class** (`Archive.Uniform`), and the events that are written of
each location are the entries and returns of calls (`archive_accepted_iff`).

The reader keeps containers apart by their names, so these have to differ (`Archive.Apart`).
-/

set_option autoImplicit false

namespace Akypuera
namespace Otf2

open CText Scene Actors

variable {args : Arguments} {names : Names} {st : State} {rs : List Record} {l : Location}
  {locations : List Location} {rounds : List (Definition × List Paje)} {timerResolution : UInt64}

theorem threadStr_head (self : UInt64) : (threadStr self).head? = some 't' := by
  have hlen := Keys.length_fmtInt64 self.toInt64
  rw [threadStr, fit_of_length_lt]
  · rfl
  · rw [List.length_cons, Keys.akyDefaultStrSize]
    omega

theorem ne_threadStr {s : Str} (h : s.head? ≠ some 't') (self : UInt64) : s ≠ threadStr self :=
  fun heq => h (heq ▸ threadStr_head self)

/-! ## Types -/

/-- The world with the types of the locations. -/
def threadWorld (w : World Str ℚ) (type : Str) : World Str ℚ :=
  { w with types := ⟨w.types.containers ++ [(sThread, type)], [(sState, sThread)],
      [(sLink, sZero, sThread, sThread)], []⟩ }

/-- **The types of the locations are declared** after those of the nodes. -/
theorem run_threadTypes {ps : List (Spot Str)} {w : World Str ℚ} (h : Grown sZero 0 ps w)
    {type : Str} (hold : type ∈ ps.map Spot.type) (hnew : ∀ p ∈ ps, p.type ≠ sThread) :
    w.run (threadTypes type) = some (threadWorld w type) := by
  have hunder : w.types.IsContainer w.top type := (h.isContainer_iff type).mpr (.inr hold)
  have hfree : ¬ w.types.IsContainer w.top sThread := by
    rw [h.isContainer_iff]
    rintro (heq | hmem)
    · exact absurd heq (by decide)
    · obtain ⟨p, hp, htype⟩ := List.mem_map.mp hmem
      exact hnew p hp htype
  obtain ⟨top, ⟨containers, states, links, values⟩, life⟩ := w
  obtain ⟨rfl, rfl, rfl⟩ : states = [] ∧ links = [] ∧ values = [] := by simpa using h.bare
  obtain rfl : top = sZero := h.top
  have hone : (World.mk sZero ⟨containers, [], [], []⟩ life : World Str ℚ).step
      (.containerType sThread type) =
        some ⟨sZero, ⟨containers ++ [(sThread, type)], [], [], []⟩, life⟩ := by
    simp only [World.step, Line.container, Types.declare, hunder, hfree, not_false_iff, and_self,
      if_true, Option.map_some]
  have hthread : (⟨containers ++ [(sThread, type)], [], [], []⟩ : Types Str).IsContainer sZero
      sThread := .inr (by simp)
  have htwo : (World.mk sZero ⟨containers ++ [(sThread, type)], [], [], []⟩ life : World Str ℚ).step
      (.stateType sState sThread) =
        some ⟨sZero, ⟨containers ++ [(sThread, type)], [(sState, sThread)], [], []⟩, life⟩ := by
    simp [World.step, Line.container, Types.declare, hthread]
  rw [threadTypes, World.run_cons, hone, Option.bind_some, World.run_cons, htwo, Option.bind_some,
    World.run_cons]
  have hends : (⟨containers ++ [(sThread, type)], [(sState, sThread)], [], []⟩ :
      Types Str).IsContainer sZero sThread := hthread
  have hroot : (⟨containers ++ [(sThread, type)], [(sState, sThread)], [], []⟩ :
      Types Str).IsContainer sZero sZero := .inl rfl
  have hthree : (World.mk sZero ⟨containers ++ [(sThread, type)], [(sState, sThread)], [], []⟩ life :
      World Str ℚ).step (.linkType sLink sZero sThread sThread) =
        some (threadWorld ⟨sZero, ⟨containers, [], [], []⟩, life⟩ type) := by
    simp [World.step, Line.container, Types.declare, hends, hroot, threadWorld]
  rw [hthree]
  rfl

namespace Archive

variable {a : Archive}

/-- **Names that do not clash**: those of the nodes, the locations, and their types. -/
structure Apart (a : Archive) : Prop where
  nodes : (a.spots.map Spot.name).Nodup
  names : ∀ p ∈ a.spots, p.name ≠ sZero ∧ ∀ self, p.name ≠ threadStr self
  types : ∀ p ∈ a.spots, p.type ≠ sZero ∧ p.type ≠ sThread
  locations : (a.stream.locations.map Location.self).Nodup

/-- **Classes at one place**: a class is under one other, and all locations are under one class. -/
structure Uniform (a : Archive) : Prop where
  classes : ∀ p ∈ a.spots, ∀ q ∈ a.spots, p.type = q.type → p.parentType = q.parentType
  locations : ∀ l ∈ a.stream.locations, ∀ l' ∈ a.stream.locations, a.classAbove l = a.classAbove l'

theorem Apart.rooted_iff (h : a.Apart) : Rooted sZero a.spots ↔
    ∀ p ∈ a.spots, ∀ q ∈ a.spots, p.type = q.type → p.parentType = q.parentType :=
  ⟨Rooted.uniform, fun huniform =>
    ⟨h.nodes, fun p hp => (h.names p hp).1, fun p hp => (h.types p hp).1, huniform⟩⟩

theorem Apart.not_mem_classes (h : a.Apart) : sThread ∉ a.classes := by
  rw [classes, ← spots_type]
  intro hmem
  obtain ⟨p, hp, htype⟩ := List.mem_map.mp hmem
  exact (h.types p hp).2 htype

/-! ## Locations -/

/-- A location is on a node. -/
theorem Ordered.exists_spot (ho : a.Ordered) (hl : l ∈ a.stream.locations) :
    ∃ q ∈ a.spots, q.name = a.above l ∧ q.type = a.classAbove l :=
  spots_at a.text (ho.stream.locations.group hl).2

theorem Ordered.typeOf_above (ho : a.Ordered) {w : World Str ℚ} (h : Grown sZero 0 a.spots w)
    (hl : l ∈ a.stream.locations) : w.typeOf (a.above l) = some (a.classAbove l) := by
  obtain ⟨q, hq, hname, htype⟩ := ho.exists_spot hl
  rw [← hname, ← htype, h.typeOf hq]

/-- What a location is under, and any other number like the first. -/
def parent (a : Archive) (self : UInt64) : Str :=
  ((a.stream.locations.find? fun l => l.self = self).or a.stream.locations.head?).elim sZero a.above

theorem exists_parent (hlocations : a.stream.locations = l :: locations) (self : UInt64) :
    ∃ l' ∈ a.stream.locations, a.parent self = a.above l' := by
  rw [parent]
  cases hfind : a.stream.locations.find? fun l => l.self = self with
  | some l' => exact ⟨l', List.mem_of_find?_eq_some hfind, rfl⟩
  | none => exact ⟨l, by simp [hlocations], by simp [hlocations]⟩

theorem Apart.parent_eq (h : a.Apart) (hl : l ∈ a.stream.locations) :
    a.parent l.self = a.above l := by
  have hsome : (a.stream.locations.find? fun l' => l'.self = l.self).isSome = true := by
    rw [List.find?_isSome]
    exact ⟨l, hl, by simp⟩
  obtain ⟨l', hfind⟩ := Option.isSome_iff_exists.mp hsome
  have hself : l'.self = l.self := by simpa using List.find?_some hfind
  have heq : l' = l := List.inj_on_of_nodup_map h.locations (List.mem_of_find?_eq_some hfind) hl hself
  rw [parent, hfind, heq]
  rfl

theorem Apart.create_eq (h : a.Apart) (hl : l ∈ a.stream.locations) :
    a.create l = (cast a.parent).line (l.self, .born 0) := by
  rw [create, ← h.parent_eq hl]
  rfl

/-- **There is room for all locations.** -/
theorem Uniform.fits (hu : a.Uniform) (h : a.Apart) (ho : a.Ordered)
    (hlocations : a.stream.locations = l :: locations) {w : World Str ℚ}
    (hw : Grown sZero 0 a.spots w) : (cast a.parent).Fits (threadWorld w (a.classAbove l)) where
  inj _ _ heq := threadStr_inj heq
  top self := hw.top ▸ (ne_threadStr (by decide) self).symm
  parent self other := by
    obtain ⟨l', hl', heq⟩ := exists_parent hlocations other
    obtain ⟨q, hq, hname, -⟩ := ho.exists_spot hl'
    show threadStr self ≠ a.parent other
    rw [heq, ← hname]
    exact ((h.names q hq).2 self).symm
  under self := by
    obtain ⟨l', hl', heq⟩ := exists_parent hlocations self
    refine ⟨(sThread, a.classAbove l), List.mem_append_right _ (List.mem_singleton_self _), rfl, ?_⟩
    show w.typeOf (a.parent self) = some (a.classAbove l)
    rw [heq, ho.typeOf_above hw hl', hu.locations l' hl' l (by simp [hlocations])]
  state := List.mem_singleton_self _
  note _ m := m.elim

/-- A world like this one, as far as the creation of locations goes. -/
structure Like (w v : World Str ℚ) (ps : List (Spot Str)) : Prop where
  types : v.types = w.types
  typeOf : ∀ p ∈ ps, v.typeOf p.name = w.typeOf p.name

/-- **Locations are created under one class only.** -/
theorem classes_of_run (h : a.Apart) (ho : a.Ordered) {w v v' : World Str ℚ} {type : Str}
    (hw : Grown sZero 0 a.spots w) (hlike : Like (threadWorld w type) v a.spots)
    {ls : List Location} (hls : ls ⊆ a.stream.locations) (hrun : v.run (ls.map a.create) = some v') :
    ∀ l ∈ ls, a.classAbove l = type := by
  induction ls generalizing v with
  | nil => exact List.forall_mem_nil _
  | cons l ls ih =>
    rw [List.map_cons, World.run_cons] at hrun
    obtain ⟨v₁, hstep, hrest⟩ := Option.bind_eq_some_iff.mp hrun
    have hl := hls List.mem_cons_self
    obtain ⟨⟨-, -, under, hmem, htype, habove⟩, life, -, hv₁⟩ :=
      (World.step_eq_some_iff rfl).mp hstep
    obtain ⟨q, hq, hname, hclass⟩ := ho.exists_spot hl
    have hbelow : v.typeOf (a.above l) = some (a.classAbove l) := by
      rw [← hname, hlike.typeOf q hq]
      show w.typeOf q.name = _
      rw [hname, ho.typeOf_above hw hl]
    have hhere : a.classAbove l = type := by
      rw [hlike.types] at hmem
      rcases List.mem_append.mp hmem with hmem | hmem
      · obtain ⟨p, hp, hthread, -⟩ := (hw.types under.1 under.2).mp hmem
        exact absurd (hthread.trans htype) (h.types p hp).2
      · rw [List.mem_singleton.mp hmem, hbelow] at habove
        exact Option.some.inj habove
    have hlike₁ : Like (threadWorld w type) v₁ a.spots := by
      refine ⟨hv₁ ▸ hlike.types, fun p hp => ?_⟩
      rw [← hlike.typeOf p hp, World.typeOf, World.typeOf,
        World.life_step_of_ne hstep fun heq => (h.names p hp).2 l.self (Option.some.inj heq).symm]
      rw [hv₁]
    intro l' hl'
    rcases List.mem_cons.mp hl' with rfl | hl'
    · exact hhere
    · exact ih hlike₁ (fun x hx => hls (List.mem_cons_of_mem _ hx)) hrest l' hl'

end Archive

/-! ## Events -/

/-- The time of the last event that is not left out. -/
def lastTime (args : Arguments) (names : Names) (timerResolution : UInt64) (rs : List Record) : ℚ :=
  ((keptRecords args names rs).getLast?.map fun r =>
    seconds timerResolution (firstTime args names rs) r.time).getD 0

/-- What is written for the events. -/
def eventActs (args : Arguments) (names : Names) (timerResolution : UInt64) (rs : List Record) :
    List (UInt64 × Act ℚ Str Empty) :=
  rs.filterMap (Record.act args names (seconds timerResolution (firstTime args names rs)))

/-- What it shows of a location. -/
def shownMarks (args : Arguments) (names : Names) (timerResolution : UInt64) (rs : List Record)
    (self : UInt64) : List (Calls.Mark ℚ Str) :=
  (actsBy self (eventActs args names timerResolution rs)).filterMap Act.mark

/-- An event is an entry or a return. -/
theorem Record.mark_act {time : UInt64 → ℚ} {r : Record} {e : UInt64 × Act ℚ Str Empty}
    (h : r.act args names time = some e) :
    e.1 = r.location ∧ e.2.isInner = true ∧ e.2.mark.isSome = true := by
  rw [Record.act] at h
  split at h
  · obtain ⟨text, -, h⟩ := Option.bind_eq_some_iff.mp h
    split at h
    · cases h
      cases r <;> exact ⟨rfl, rfl, rfl⟩
    · cases h
  · cases h

theorem mem_eventActs {self : UInt64} {x : Act ℚ Str Empty}
    (h : x ∈ actsBy self (eventActs args names timerResolution rs)) :
    x.isInner = true ∧ x.mark.isSome = true := by
  obtain ⟨e, he, rfl⟩ := List.mem_map.mp h
  obtain ⟨r, -, hr⟩ := List.mem_filterMap.mp (List.mem_of_mem_filter he)
  exact (Record.mark_act hr).2

theorem shownMarks_eq_nil {self : UInt64} : shownMarks args names timerResolution rs self = [] ↔
    actsBy self (eventActs args names timerResolution rs) = [] := by
  rw [shownMarks, List.filterMap_eq_nil_iff]
  constructor
  · intro h
    refine List.eq_nil_iff_forall_not_mem.mpr fun x hx => ?_
    have hsome := (mem_eventActs hx).2
    rw [h x hx] at hsome
    exact absurd hsome Bool.false_ne_true
  · intro h
    rw [h]
    exact List.forall_mem_nil _

/-! ## The whole trace -/

/-- What a reader sees, by the runs that write it. -/
theorem lines_of_runs (hdummy : args.dummy = false) {ds : List Definition} {clock : Clock}
    {outs : List Paje} {last : ℚ} (hrun : run args .default State.init ds = some (st, rounds))
    (hevents : runRecords args st.names (Clock.init timerResolution) rs = some (clock, outs))
    (hlast : clock.lastTimestamp = some last) :
    lines args timerResolution ds rs = some (linesOf rounds ++ (outs.map Paje.line ++
      st.locations.map fun location => .destroy last sThread (threadStr location))) := by
  have hends : (st.locations.mapM fun location => clock.lastTimestamp.map fun time =>
      Destroy.mk time sThread (threadStr location)) =
        some (st.locations.map fun location => Destroy.mk last sThread (threadStr location)) := by
    rw [hlast]
    exact List.mapM_pure
  simp only [lines, output, hrun, hevents, hdummy, hends, Option.bind_eq_bind, Option.bind_some,
    Bool.false_eq_true, if_false, Option.pure_def, Option.map_some, List.map_append, List.map_map,
    Sum.elim_comp_inl, linesOf, List.append_assoc]
  rfl

namespace Archive

variable {a : Archive}

/-- The locations are created, the events come, and the locations are destroyed. -/
def acts (a : Archive) (args : Arguments) (names : Names) (timerResolution : UInt64)
    (rs : List Record) : List (UInt64 × Act ℚ Str Empty) :=
  let last := lastTime args names timerResolution rs
  a.stream.locations.map (fun l => (l.self, .born 0)) ++
    (eventActs args names timerResolution rs ++
      a.stream.locations.map fun l => (l.self, .died last))

/-- **What `main` writes.** -/
theorem lines_eq (hdummy : args.dummy = false) (ho : a.Ordered) (h : a.Apart)
    (hlocations : a.stream.locations = l :: locations) (hres : timerResolution ≠ 0)
    (hrun : run args .default State.init a.definitions = some (st, rounds))
    (hnamed : ∀ r ∈ rs, (st.names.stateName r.region).isSome = true)
    (hkept : ∃ r ∈ rs, r.kept args st.names = true) :
    lines args timerResolution a.definitions rs =
      some (plant 0 a.spots ++ (threadTypes (a.classAbove l) ++
        (a.acts args st.names timerResolution rs).map (cast a.parent).line)) := by
  obtain ⟨-, hselves, hdefs⟩ := definitions_lines hdummy ho hlocations h.not_mem_classes hrun
  obtain ⟨outs, hevents, houts⟩ := @runRecords_eq args st.names (Clock.init timerResolution) rs hres
    hnamed
  have hlast : ((Clock.init timerResolution).after (keptRecords args st.names rs)).lastTimestamp =
      some (lastTime args st.names timerResolution rs) := by
    obtain ⟨r, hr, hk⟩ := hkept
    have hne : keptRecords args st.names rs ≠ [] := List.ne_nil_of_mem (List.mem_filter.mpr ⟨hr, hk⟩)
    simp [Clock.after, Clock.init, lastTime, firstTime, List.getLast?_eq_some_getLast hne]
  have hcreate : a.stream.locations.map a.create =
      (a.stream.locations.map fun l => (l.self, Act.born 0)).map (cast a.parent).line := by
    rw [List.map_map]
    exact List.map_congr_left fun l hl => h.create_eq hl
  have hacts : outs.map Paje.line =
      (eventActs args st.names timerResolution rs).map (cast a.parent).line :=
    (houts a.parent).trans (by simp [eventActs, firstTime, Clock.after, Clock.init])
  rw [lines_of_runs hdummy hrun hevents hlast, hdefs, hacts, hselves, hcreate, acts]
  simp only [List.map_append, List.map_map, List.append_assoc]
  rfl

/-- The acts of a location, or of something else. -/
theorem actsBy_acts (h : a.Apart) (self : UInt64) :
    actsBy self (a.acts args names timerResolution rs) =
      if self ∈ a.stream.locations.map Location.self then
        .born 0 :: actsBy self (eventActs args names timerResolution rs) ++
          [.died (lastTime args names timerResolution rs)]
      else actsBy self (eventActs args names timerResolution rs) := by
  rw [acts, actsBy_append, actsBy_append, actsBy_once h.locations, actsBy_once h.locations]
  split
  · rfl
  · exact List.append_nil _

/-- **The acts of a location make sense when its events are those of calls**, and of anything else
    when there are none. -/
theorem stage_iff (h : a.Apart) (self : UInt64) :
    (∃ t, Stage.absent.run (actsBy self (a.acts args names timerResolution rs)) = some t) ↔
      (∃ calls : Calls ℚ Str, shownMarks args names timerResolution rs self = calls.marks) ∧
        (self ∉ a.stream.locations.map Location.self →
          shownMarks args names timerResolution rs self = []) := by
  have hinner : ∀ x ∈ actsBy self (eventActs args names timerResolution rs), x.isInner = true :=
    fun x hx => (mem_eventActs hx).1
  rw [actsBy_acts h]
  by_cases hself : self ∈ a.stream.locations.map Location.self
  · rw [if_pos hself, Stage.exists_run_whole_iff hinner]
    exact ⟨fun hcalls => ⟨hcalls, fun hnot => absurd hself hnot⟩, And.left⟩
  · rw [if_neg hself, Stage.run_absent hinner, ← shownMarks_eq_nil]
    exact ⟨fun hnil => ⟨⟨.done, hnil⟩, fun _ => hnil⟩, fun hboth => hboth.2 hself⟩

/-- Locations are created before anything else happens. -/
theorem acts_lines (h : a.Apart) (args : Arguments) (names : Names) (timerResolution : UInt64)
    (rs : List Record) : ∃ rest, (a.acts args names timerResolution rs).map (cast a.parent).line =
      a.stream.locations.map a.create ++ rest := by
  refine ⟨_, (List.map_append).trans (congrArg (· ++ _) ?_)⟩
  rw [List.map_map]
  exact List.map_congr_left fun l hl => (h.create_eq hl).symm

/-- **What is read of the acts**, after the definitions. -/
theorem run_acts (hu : a.Uniform) (h : a.Apart) (ho : a.Ordered)
    (hlocations : a.stream.locations = l :: locations) {w : World Str ℚ}
    (hw : Grown sZero 0 a.spots w) (es : List (UInt64 × Act ℚ Str Empty)) :
    (threadWorld w (a.classAbove l)).run (es.map (cast a.parent).line) =
      (Actors.run (fun _ => .absent) es).map
        ((cast a.parent).put (threadWorld w (a.classAbove l))) := by
  have hfits := hu.fits h ho hlocations hw
  rw [← Cast.run_put hfits, Cast.put_absent hfits.inj]
  intro self
  refine hw.absent _ fun hmem => ?_
  obtain ⟨p, hp, hname⟩ := List.mem_map.mp hmem
  exact (h.names p hp).2 self hname

/-- **The first part of the trace**, when each class is under one other. -/
theorem exists_planted (h : a.Apart) (ho : a.Ordered)
    (hlocations : a.stream.locations = l :: locations) (hlen : a.stream.nodes.length < 2 ^ 31)
    (hclasses : ∀ p ∈ a.spots, ∀ q ∈ a.spots, p.type = q.type → p.parentType = q.parentType) :
    ∃ w : World Str ℚ, Grown sZero 0 a.spots w ∧ ∀ rest, (World.start sZero).run
      (plant 0 a.spots ++ (threadTypes (a.classAbove l) ++ rest)) =
        (threadWorld w (a.classAbove l)).run rest := by
  have hranked : Ranked sZero a.spots := ranked_spots ho.stream.nodes hlen
  obtain ⟨w, hrun⟩ : ∃ w : World Str ℚ, (World.start sZero).run (plant 0 a.spots) = some w :=
    (plant_iff hranked).mpr (h.rooted_iff.mpr hclasses)
  have hw := grown_of_run hranked hrun
  obtain ⟨q, hq, -, htype⟩ := ho.exists_spot (l := l) (by simp [hlocations])
  have htypes := run_threadTypes hw (List.mem_map.mpr ⟨q, hq, htype⟩) fun p hp => (h.types p hp).2
  refine ⟨w, hw, fun rest => ?_⟩
  rw [World.run_append, hrun, Option.bind_some, World.run_append, htypes, Option.bind_some]

/-- **When the trace of otf22paje is accepted**: for any nodes, groups and locations that the
    definitions go through with, with names that do not clash, and any events of regions that have
    names. -/
theorem archive_accepted_iff (args : Arguments) (hdummy : args.dummy = false) (ho : a.Ordered)
    (h : a.Apart) (hsome : a.stream.locations ≠ []) {timerResolution : UInt64}
    (hres : timerResolution ≠ 0)
    (hrun : run args .default State.init a.definitions = some (st, rounds))
    (hnamed : ∀ r ∈ rs, (st.names.stateName r.region).isSome = true)
    (hkept : ∃ r ∈ rs, r.kept args st.names = true) :
    (∃ out w, lines args timerResolution a.definitions rs = some out ∧
      (World.start sZero).run out = some w) ↔
        a.Uniform ∧ ∀ self,
          (∃ calls : Calls ℚ Str, shownMarks args st.names timerResolution rs self = calls.marks) ∧
          (self ∉ a.stream.locations.map Location.self →
            shownMarks args st.names timerResolution rs self = []) := by
  obtain ⟨l, locations, hlocations⟩ := List.exists_cons_of_ne_nil hsome
  have hlines := lines_eq hdummy ho h hlocations hres hrun hnamed hkept
  obtain ⟨hlen, -, -⟩ := definitions_lines hdummy ho hlocations h.not_mem_classes hrun
  have hranked : Ranked sZero a.spots := ranked_spots ho.stream.nodes hlen
  rw [hlines]
  simp only [Option.some.injEq, exists_and_left, exists_eq_left', ← stage_iff h, ← exists_run_iff]
  constructor
  · rintro ⟨w', hrun'⟩
    have hplanted := hrun'
    rw [World.run_append] at hplanted
    obtain ⟨w, hplant, -⟩ := Option.bind_eq_some_iff.mp hplanted
    have hclasses := h.rooted_iff.mp ((plant_iff hranked).mp ⟨w, hplant⟩)
    obtain ⟨w, hw, hrest⟩ := exists_planted h ho hlocations hlen hclasses
    rw [hrest] at hrun'
    obtain ⟨rest, hcreates⟩ := acts_lines h args st.names timerResolution rs
    have hsplit := hrun'
    rw [hcreates, World.run_append] at hsplit
    obtain ⟨v, hv, -⟩ := Option.bind_eq_some_iff.mp hsplit
    have hone := classes_of_run h ho hw ⟨rfl, fun _ _ => rfl⟩ (List.Subset.refl _) hv
    have hu : a.Uniform := ⟨hclasses, fun l₁ h₁ l₂ h₂ => (hone l₁ h₁).trans (hone l₂ h₂).symm⟩
    rw [run_acts hu h ho hlocations hw] at hrun'
    obtain ⟨s, hs, -⟩ := Option.map_eq_some_iff.mp hrun'
    exact ⟨hu, s, hs⟩
  · rintro ⟨hu, s, hs⟩
    obtain ⟨w, hw, hrest⟩ := exists_planted h ho hlocations hlen hu.classes
    refine ⟨(cast a.parent).put (threadWorld w (a.classAbove l)) s, ?_⟩
    rw [hrest, run_acts hu h ho hlocations hw, hs]
    rfl

end Archive

/-- A machine with a node, and a location on each. -/
def twoPlaces : Archive where
  before := [.string 0 "m".toList, .string 1 "machine".toList, .string 2 "n".toList,
    .string 3 "node".toList, .string 4 "main".toList]
  stream :=
    { nodes := [⟨0, 1, undefinedNode⟩, ⟨2, 3, 0⟩]
      groups := [⟨2, 1⟩, ⟨0, 0⟩]
      locations := [⟨0, 2, 1, 0⟩, ⟨1, 0, 1, 1⟩] }
  after := [.region 0 4]

theorem twoPlaces_ordered : twoPlaces.Ordered :=
  ⟨by decide, ⟨⟨by decide, by decide⟩, by decide, by decide, by decide, by decide⟩⟩

theorem twoPlaces_apart : twoPlaces.Apart where
  nodes := by decide
  names := by
    have hnames : ∀ p ∈ twoPlaces.spots, p.name ≠ sZero ∧ p.name.head? ≠ some 't' := by decide
    exact fun p hp => ⟨(hnames p hp).1, ne_threadStr (hnames p hp).2⟩
  types := by decide
  locations := by decide

/-- **Locations on nodes of two classes** are refused. -/
theorem archive_accepted_iff_twoPlaces : ¬ ∃ out w,
    lines ⟨false, false, false⟩ 1 twoPlaces.definitions [.enter 0 5 0, .leave 0 7 0] = some out ∧
      (World.start sZero).run out = some w := by
  have hnamed : (run ⟨false, false, false⟩ .default State.init twoPlaces.definitions).bind
      (fun p => p.1.names.stateName 0) = some "main".toList := by decide
  obtain ⟨⟨st, rounds⟩, hrun, hname⟩ := Option.bind_eq_some_iff.mp hnamed
  have hname : st.names.stateName 0 = some "main".toList := hname
  rw [Archive.archive_accepted_iff ⟨false, false, false⟩ rfl twoPlaces_ordered twoPlaces_apart
    (by decide) (by decide) hrun (by simp [Record.region, hname])
    ⟨.enter 0 5 0, by simp, by simp [Record.kept, Record.region, hname, Arguments.passes]⟩]
  rintro ⟨hu, -⟩
  have hone := hu.locations ⟨0, 2, 1, 0⟩ (by decide) ⟨1, 0, 1, 1⟩ (by decide)
  exact absurd hone (by decide)

end Otf2
end Akypuera

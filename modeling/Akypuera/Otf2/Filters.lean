import Akypuera.Otf2.Regions
import Akypuera.Tau.Filters

/-!
# Regions that are left out

`otf22paje_enter` and `otf22paje_leave` search the name of the region for `MPI_`, each by itself.
All definitions come before the first event, so both find the same name, and pushes and pops stay
paired. **But the name may not be the one that was defined**: it may be lost, and then the callback
fails, or it has lost its blanks, and then a name can pass the filter that did not
(`regionsPaired_iff`).
-/

set_option autoImplicit false

namespace Akypuera
namespace Otf2

open CText Nesting

def sMpi : Str := "MPI_".toList

/-- States are written. -/
def Arguments.states (args : Arguments) : Bool := !args.dummy && !args.noStates

/-- The filter. -/
def Arguments.passes (args : Arguments) (text : Str) : Bool :=
  !args.onlyMpi || decide (sMpi <:+: text)

/-! ## Events -/

def Event.location : Event → UInt64
  | .enter _ locationID _ | .leave _ locationID _ => locationID

def Event.region : Event → UInt32
  | .enter _ _ regionID | .leave _ _ regionID => regionID

def Event.mark : Event → Mark
  | .enter .. => .opens
  | .leave .. => .closes

/-- The marks of a location's event. -/
def Event.marksOf (location : UInt64) (e : Event) : List Mark :=
  if e.location = location then [e.mark] else []

/-- The openings and closings of a location, by their places. -/
def marks (location : UInt64) (es : List Event) : List (Nat × Mark) :=
  placed (Event.marksOf location) 0 es

/-- A closing closes an opening of the same region. -/
def SameRegion (es : List Event) (x : Nat × Option Nat) : Prop :=
  match x.2 with
  | some i => es[i]?.map Event.region = es[x.1]?.map Event.region
  | none => False

instance (es : List Event) (x : Nat × Option Nat) : Decidable (SameRegion es x) :=
  match x with
  | (_, some _) => inferInstanceAs (Decidable (_ = _))
  | (_, none) => inferInstanceAs (Decidable False)

/-- **Properly nested**, location by location. -/
def Nested (es : List Event) : Prop :=
  ∀ location ∈ es.map Event.location,
    leftOpen [] (marks location es) = [] ∧ ∀ x ∈ closings [] (marks location es), SameRegion es x

instance (es : List Event) : Decidable (Nested es) := @List.decidableBAll _ _ (fun _ => inferInstance) _

/-- The states of a container. -/
def Paje.markIn (name : Str) : Paje → Option Mark
  | .pushState _ container _ _ => if container = name then some .opens else none
  | .popState _ container _ => if container = name then some .closes else none
  | _ => none

/-- The openings and closings of a location's container, by the places of the events that wrote
    them. -/
def containerMarks (location : UInt64) (rounds : List (Event × List Paje)) : List (Nat × Mark) :=
  placed (fun x => x.2.filterMap (Paje.markIn (threadStr location))) 0 rounds

/-! ## Names -/

/-- The string that a region is defined with. -/
def regionName (defs : List Definition) (r : UInt32) : Option UInt32 :=
  defs.findSome? fun
    | .region self name => if self = r then some name else none
    | _ => none

def stringText (defs : List Definition) (i : UInt32) : Option Str :=
  defs.findSome? fun
    | .string self text => if self = i then some text else none
    | _ => none

/-- The event at place `i` is one to write: states are, and the name that its region is defined with
    passes the filter. -/
def kept (args : Arguments) (defs : List Definition) (es : List Event) (i : Nat) : Bool :=
  args.states &&
    (es[i]?.bind fun e => (regionName defs e.region).bind (stringText defs)).any args.passes

/-- **The states of every location's container are those that are to be written**, nothing is
    popped that was not pushed, and each pop closes the push of its own enter. -/
structure PairedIn (args : Arguments) (defs : List Definition) (es : List Event)
    (rounds : List (Event × List Paje)) (location : UInt64) : Prop where
  written : containerMarks location rounds =
    (marks location es).filter fun x => kept args defs es x.1
  matched : ∀ x ∈ closings [] (containerMarks location rounds),
    x.2.isSome = true ∧ x ∈ closings [] (marks location es)
  balanced : leftOpen [] (containerMarks location rounds) = []

/-- The definitions and the events go through, and leave all states paired. -/
def RegionsPaired (mode : Mode) (args : Arguments) (defs : List Definition) (es : List Event) :
    Prop :=
  ∃ names rounds, Names.run mode Names.init defs = some names ∧
    (∀ args st defined, run args mode State.init defs = some (st, defined) → st.names = names) ∧
    runEvents args names es = some rounds ∧
    ∀ location ∈ es.map Event.location, PairedIn args defs es rounds location

/-- **The names that the events need**: nothing that they use has been lost, and where blanks are,
    the filter does not depend on them. -/
structure NamesServe (mode : Mode) (args : Arguments) (defs : List Definition) (es : List Event) :
    Prop where
  room : ∀ d ∈ defs, ∀ self ∈ d.grows, self.toNat + 1 < 2 ^ 31
  nodes : ∀ k (hk : k < defs.length), ∀ i ∈ defs[k].reads mode,
    ¬ Lost (stringRefs (defs.take k)) i
  regions : ∀ e ∈ es, ¬ Lost (regionRefs defs) e.region
  strings : ∀ e ∈ es, ∀ name, .region e.region name ∈ defs → ¬ Lost (stringRefs defs) name
  blanks : args.states = true → args.onlyMpi = true → mode ≠ .flat → ∀ e ∈ es, ∀ name text,
    .region e.region name ∈ defs → .string name text ∈ defs → name ∈ nodeNames defs →
      sMpi <:+: deblank text → sMpi <:+: text

/-! ## One event -/

variable {mode : Mode} {args : Arguments} {defs : List Definition} {es : List Event}
  {names : Names}

theorem passes_iff {text : Str} :
    args.passes text = true ↔ ¬ (args.onlyMpi = true ∧ ¬ "MPI_".toList <:+: text) := by
  rw [Arguments.passes, Bool.or_eq_true, Bool.not_eq_true', decide_eq_true_iff, not_and_or,
    not_not, Bool.not_eq_true]
  rfl

theorem states_iff : args.states = true ↔ ¬ (args.dummy = true ∨ args.noStates = true) := by
  simp [Arguments.states]

/-- The two conditions of the callbacks. -/
theorem written_eq (args : Arguments) (text : Str) (p : Paje) :
    (if args.onlyMpi = true ∧ ¬ "MPI_".toList <:+: text then some []
      else if args.dummy = true ∨ args.noStates = true then some []
      else some [p]) = some (if args.states && args.passes text then [p] else []) := by
  split
  · next hdropped =>
    rw [if_neg fun h => passes_iff.mp (Bool.and_eq_true_iff.mp h).2 hdropped]
  · next hpasses =>
    split
    · next hquiet =>
      rw [if_neg fun h => states_iff.mp (Bool.and_eq_true_iff.mp h).1 hquiet]
    · next hstates =>
      rw [if_pos (Bool.and_eq_true_iff.mpr ⟨states_iff.mpr hstates, passes_iff.mpr hpasses⟩)]

/-- What an event writes for a region called `text`. -/
def Event.push (text : Str) : Event → Paje
  | .enter seconds locationID _ => .pushState seconds (threadStr locationID) sState text
  | .leave seconds locationID _ => .popState seconds (threadStr locationID) sState

theorem call_eq (args : Arguments) (names : Names) (e : Event) :
    e.call args names = (names.stateName e.region).map fun text =>
      if args.states && args.passes text then [e.push text] else [] := by
  cases e with
  | enter seconds locationID regionID =>
    rw [Event.call, enter, Event.region, Option.bind_eq_bind]
    cases names.stateName regionID with
    | none => rfl
    | some text => exact written_eq args text _
  | leave seconds locationID regionID =>
    rw [Event.call, leave, Event.region, Option.bind_eq_bind]
    cases names.stateName regionID with
    | none => rfl
    | some text => exact written_eq args text _

/-- **Distinct locations have distinct containers.** -/
theorem threadStr_inj {l l' : UInt64} (h : threadStr l = threadStr l') : l = l' := by
  have hshort : ∀ m : UInt64, ('t' :: fmtInt m.toInt64.toInt).length < Keys.akyDefaultStrSize := by
    intro m
    have hlen := Keys.length_fmtInt64 m.toInt64
    rw [List.length_cons, Keys.akyDefaultStrSize]
    omega
  rw [threadStr, threadStr, fit_of_length_lt (hshort l), fit_of_length_lt (hshort l')] at h
  have hint := Int64.toInt_inj.mp (fmtInt_inj (List.cons.inj h).2)
  rw [← UInt64.toUInt64_toInt64 l, hint, UInt64.toUInt64_toInt64]

theorem push_markIn (e : Event) (text : Str) (location : UInt64) :
    [e.push text].filterMap (Paje.markIn (threadStr location)) = e.marksOf location := by
  cases e with
  | enter seconds locationID regionID | leave seconds locationID regionID =>
    by_cases h : locationID = location
    · subst h
      simp [Event.push, Paje.markIn, Event.marksOf, Event.location, Event.mark]
    · have hne : threadStr locationID ≠ threadStr location := fun heq => h (threadStr_inj heq)
      simp [Event.push, Paje.markIn, Event.marksOf, Event.location, h, hne]

/-! ## Runs -/

/-- The event at place `i` is written, by what the tables hold. -/
def shown (args : Arguments) (names : Names) (es : List Event) (i : Nat) : Bool :=
  args.states && (es[i]?.bind fun e => names.stateName e.region).any args.passes

theorem runEvents_eq_some {rounds : List (Event × List Paje)} :
    runEvents args names es = some rounds ↔
      rounds.map Prod.fst = es ∧ ∀ x ∈ rounds, x.1.call args names = some x.2 := by
  induction es generalizing rounds with
  | nil =>
    rw [runEvents, List.map_eq_nil_iff, Option.some.injEq]
    constructor
    · rintro rfl
      exact ⟨rfl, nofun⟩
    · rintro ⟨rfl, -⟩
      rfl
  | cons e es ih =>
    simp only [runEvents, Option.bind_eq_bind, Option.bind_eq_some_iff, Option.pure_def,
      Option.some.injEq]
    constructor
    · rintro ⟨outs, hcall, rest, hrest, rfl⟩
      obtain ⟨hfst, hall⟩ := ih.mp hrest
      refine ⟨congrArg (e :: ·) hfst, ?_⟩
      intro x hx
      rcases List.mem_cons.mp hx with rfl | hx
      · exact hcall
      · exact hall x hx
    · rintro ⟨hfst, hall⟩
      obtain ⟨x, rest, rfl, rfl, hrest⟩ := List.map_eq_cons_iff.mp hfst
      exact ⟨x.2, hall x List.mem_cons_self, rest,
        ih.mpr ⟨hrest, fun y hy => hall y (List.mem_cons_of_mem _ hy)⟩, rfl⟩

/-- Events go through when all names are there. -/
theorem runEvents_isSome_iff :
    (∃ rounds, runEvents args names es = some rounds) ↔
      ∀ e ∈ es, (names.stateName e.region).isSome = true := by
  constructor
  · rintro ⟨rounds, hrun⟩ e he
    obtain ⟨hfst, hall⟩ := runEvents_eq_some.mp hrun
    rw [← hfst] at he
    obtain ⟨x, hx, rfl⟩ := List.mem_map.mp he
    have hcall := hall x hx
    rw [call_eq, Option.map_eq_some_iff] at hcall
    obtain ⟨text, htext, -⟩ := hcall
    exact Option.isSome_of_mem htext
  · intro h
    refine ⟨es.map fun e => (e, (e.call args names).getD []), runEvents_eq_some.mpr ⟨?_, ?_⟩⟩
    · rw [List.map_map]
      exact List.map_id es
    · intro x hx
      obtain ⟨e, he, rfl⟩ := List.mem_map.mp hx
      obtain ⟨text, htext⟩ := Option.isSome_iff_exists.mp (h e he)
      rw [call_eq, htext]
      rfl

/-- **What the events write in a container.** -/
theorem containerMarks_eq {rounds : List (Event × List Paje)}
    (hrun : runEvents args names es = some rounds) (location : UInt64) :
    containerMarks location rounds =
      (marks location es).filter fun x => shown args names es x.1 := by
  obtain ⟨rfl, hall⟩ := runEvents_eq_some.mp hrun
  apply placed_eq_filter (shown args names _)
  intro before x after heq
  have hcall := hall x (heq ▸ List.mem_append_right before List.mem_cons_self)
  rw [call_eq, Option.map_eq_some_iff] at hcall
  obtain ⟨text, htext, houts⟩ := hcall
  have hshown : shown args names (rounds.map Prod.fst) (0 + before.length) =
      (args.states && args.passes text) := by
    simp [shown, heq, htext]
  rw [hshown, ← houts]
  split
  · exact push_markIn x.1 text location
  · rfl

/-! ## Names -/

theorem regionName_eq (h : WellDefined defs) {r name : UInt32} (hmem : .region r name ∈ defs) :
    regionName defs r = some name := by
  obtain ⟨before, after, rfl, hbefore, -⟩ := regionRefs_split h.regions hmem
  rw [regionName, List.findSome?_append, List.findSome?_eq_none_iff.mpr, Option.none_or]
  · simp
  · intro d hd
    cases d with
    | region self name' =>
      have hne : self ≠ r := by
        rintro rfl
        exact hbefore (List.mem_filterMap.mpr ⟨_, hd, rfl⟩)
      exact if_neg hne
    | _ => rfl

theorem stringText_eq (h : WellDefined defs) {i : UInt32} {text : Str}
    (hmem : .string i text ∈ defs) : stringText defs i = some text := by
  obtain ⟨before, after, rfl, hbefore, -⟩ := stringRefs_split h.strings hmem
  rw [stringText, List.findSome?_append, List.findSome?_eq_none_iff.mpr, Option.none_or]
  · simp
  · intro d hd
    cases d with
    | string self text' =>
      have hne : self ≠ i := by
        rintro rfl
        exact hbefore (List.mem_filterMap.mpr ⟨_, hd, rfl⟩)
      exact if_neg hne
    | _ => rfl

/-- A name that passes does so without its blanks. -/
theorem passes_deblank {text : Str} (h : sMpi <:+: text) : sMpi <:+: deblank text := by
  have hfilter := h.filter fun c => decide (c ≠ ' ')
  exact hfilter

/-- **The filter and blanks.** -/
theorem passes_deblank_iff {text : Str} :
    args.passes (deblank text) = args.passes text ↔
      (args.onlyMpi = true → sMpi <:+: deblank text → sMpi <:+: text) := by
  rw [Arguments.passes, Arguments.passes]
  cases args.onlyMpi with
  | false => simp
  | true =>
    rw [Bool.not_true, Bool.false_or, Bool.false_or, decide_eq_decide]
    exact ⟨fun h _ => h.mp, fun h => ⟨h rfl, passes_deblank⟩⟩

/-! ## Pairs -/

theorem mem_marks {before after : List Event} {e : Event} (h : es = before ++ e :: after) :
    (before.length, e.mark) ∈ marks e.location es := by
  rw [h, marks, placed_append, placed, Nat.zero_add]
  refine List.mem_append_right _ (List.mem_append_left _ ?_)
  rw [Event.marksOf, if_pos rfl]
  exact List.mem_singleton_self _

/-- **Pairs are left out as pairs**: at both ends the region, and so the decision, is the same. -/
theorem pairedIn_of_written (hnested : Nested es) {rounds : List (Event × List Paje)}
    {location : UInt64} (hlocation : location ∈ es.map Event.location)
    (hwritten : containerMarks location rounds =
      (marks location es).filter fun x => kept args defs es x.1) :
    PairedIn args defs es rounds location := by
  obtain ⟨hopen, hmatched⟩ := hnested location hlocation
  have hkept : ∀ x ∈ closings [] (marks location es),
      ∃ i, x.2 = some i ∧ kept args defs es i = kept args defs es x.1 := by
    intro x hx
    have hsame := hmatched x hx
    obtain ⟨j, i⟩ := x
    cases i with
    | none => cases hsame
    | some i =>
      have hregion : ∀ k : Nat, (es[k]?.bind fun e => (regionName defs e.region).bind (stringText defs)) =
          (es[k]?.map Event.region).bind fun r => (regionName defs r).bind (stringText defs) := by
        intro k
        rw [Option.bind_map]
        rfl
      have hends : es[i]?.map Event.region = es[j]?.map Event.region := hsame
      refine ⟨i, rfl, ?_⟩
      rw [kept, kept, hregion, hregion, hends]
  obtain ⟨hpaired, hleft⟩ := paired_filter (kept args defs es) hkept
  rw [← hwritten] at hpaired hleft
  refine ⟨hwritten, hpaired, ?_⟩
  rw [hleft, hopen, List.filter_nil]

/-- **The states are paired exactly when the filter decides on the names that were defined.** -/
theorem pairedIn_iff (hnested : Nested es) {rounds : List (Event × List Paje)}
    (hrun : runEvents args names es = some rounds) :
    (∀ location ∈ es.map Event.location, PairedIn args defs es rounds location) ↔
      ∀ i, shown args names es i = kept args defs es i := by
  constructor
  · intro hpaired i
    by_cases hi : i < es.length
    · have hsplit : es = es.take i ++ es[i] :: es.drop (i + 1) := by
        rw [List.getElem_cons_drop, List.take_append_drop]
      have hmem := mem_marks hsplit
      rw [List.length_take_of_le hi.le] at hmem
      have hwritten := (hpaired es[i].location (List.mem_map_of_mem (List.getElem_mem hi))).written
      rw [containerMarks_eq hrun] at hwritten
      have hboth := iff_of_eq (congrArg ((i, es[i].mark) ∈ ·) hwritten)
      rw [List.mem_filter, List.mem_filter, and_iff_right hmem, and_iff_right hmem] at hboth
      exact Bool.eq_iff_iff.mpr hboth
    · rw [shown, kept, List.getElem?_eq_none (Nat.le_of_not_lt hi)]
      rfl
  · intro hsame location hlocation
    refine pairedIn_of_written hnested hlocation ?_
    rw [containerMarks_eq hrun]
    exact List.filter_congr fun x _ => hsame x.1

/-- The decisions on a region, by the tables and by the definitions. -/
theorem WellDefined.decided (h : WellDefined defs)
    (hrun : Names.run mode Names.init defs = some names) {r name : UInt32} {text : Str}
    (hregion : .region r name ∈ defs) (hstring : .string name text ∈ defs)
    (hfound : (names.stateName r).isSome = true) :
    ¬ Lost (regionRefs defs) r ∧ ¬ Lost (stringRefs defs) name ∧
      names.stateName r =
        some (if mode ≠ .flat ∧ name ∈ nodeNames defs then deblank text else text) := by
  have hroom := (h.run_isSome_iff.mp (Option.isSome_of_mem hrun)).1 _ hstring name rfl
  classical
  have hstate := h.stateName_eq hrun hregion hstring (by omega)
  by_cases hlost : Lost (regionRefs defs) r ∨ Lost (stringRefs defs) name
  · rw [hstate, if_pos hlost] at hfound
    cases hfound
  · rw [if_neg hlost] at hstate
    exact ⟨(not_or.mp hlost).1, (not_or.mp hlost).2, hstate⟩

/-- What the tables decide on an event, and what its name does. -/
theorem shown_eq_kept_iff {i : Nat} {e : Event} (he : es[i]? = some e) {name : UInt32}
    {text text' : Str} (hname : regionName defs e.region = some name)
    (htext : stringText defs name = some text) (hstate : names.stateName e.region = some text') :
    shown args names es i = kept args defs es i ↔
      (args.states = true → args.passes text' = args.passes text) := by
  rw [shown, kept, he, Option.bind_some, Option.bind_some, hname, Option.bind_some, htext, hstate,
    Option.any_some, Option.any_some]
  cases args.states <;> simp

theorem exists_region (hdefined : ∀ e ∈ es, e.region ∈ regionRefs defs) :
    ∀ e ∈ es, ∃ name, .region e.region name ∈ defs := by
  intro e he
  obtain ⟨d, hd, hr⟩ := List.mem_filterMap.mp (hdefined e he)
  cases d with
  | region self name => cases hr; exact ⟨name, hd⟩
  | _ => cases hr

/-- **When the states of otf22paje are paired.** -/
theorem regionsPaired_iff (h : WellDefined defs) (hdefined : ∀ e ∈ es, e.region ∈ regionRefs defs)
    (hnested : Nested es) : RegionsPaired mode args defs es ↔ NamesServe mode args defs es := by
  have hregion := exists_region hdefined
  constructor
  · rintro ⟨names, rounds, hrun, -, hevents, hpaired⟩
    obtain ⟨hroom, hnodes⟩ := h.run_isSome_iff.mp (Option.isSome_of_mem hrun)
    have hfound := runEvents_isSome_iff.mp ⟨rounds, hevents⟩
    have hsame := (pairedIn_iff hnested hevents).mp hpaired
    refine ⟨hroom, hnodes, ?_, ?_, ?_⟩
    · intro e he
      obtain ⟨name, hname⟩ := hregion e he
      obtain ⟨text, htext⟩ := h.used hname List.mem_cons_self
      exact (h.decided hrun hname htext (hfound e he)).1
    · intro e he name hname
      obtain ⟨text, htext⟩ := h.used hname List.mem_cons_self
      exact (h.decided hrun hname htext (hfound e he)).2.1
    · intro hstates hmpi hmode e he name text hname htext hnode
      have hstate := (h.decided hrun hname htext (hfound e he)).2.2
      rw [if_pos ⟨hmode, hnode⟩] at hstate
      obtain ⟨i, hi, rfl⟩ := List.getElem_of_mem he
      have hpasses := (shown_eq_kept_iff (List.getElem?_eq_getElem hi) (regionName_eq h hname)
        (stringText_eq h htext) hstate).mp (hsame i) hstates
      exact passes_deblank_iff.mp hpasses hmpi
  · intro hserve
    obtain ⟨names, hrun⟩ :=
      Option.isSome_iff_exists.mp (h.run_isSome_iff.mpr ⟨hserve.room, hserve.nodes⟩)
    -- the names of the events are there, with or without their blanks
    have hstate : ∀ e ∈ es, ∀ name text, .region e.region name ∈ defs → .string name text ∈ defs →
        names.stateName e.region =
          some (if mode ≠ .flat ∧ name ∈ nodeNames defs then deblank text else text) := by
      intro e he name text hname htext
      have hroom := hserve.room _ htext name rfl
      classical
      rw [h.stateName_eq hrun hname htext (by omega),
        if_neg (not_or_intro (hserve.regions e he) (hserve.strings e he name hname))]
    obtain ⟨rounds, hevents⟩ := runEvents_isSome_iff.mpr fun e he => by
      obtain ⟨name, hname⟩ := hregion e he
      obtain ⟨text, htext⟩ := h.used hname List.mem_cons_self
      exact Option.isSome_of_mem (hstate e he name text hname htext)
    refine ⟨names, rounds, hrun, ?_, hevents, ?_⟩
    · intro args st defined hst
      exact Option.some.inj ((run_names hst).symm.trans hrun)
    · apply (pairedIn_iff hnested hevents).mpr
      intro i
      by_cases hi : i < es.length
      · have he := List.getElem_mem hi
        obtain ⟨name, hname⟩ := hregion es[i] he
        obtain ⟨text, htext⟩ := h.used hname List.mem_cons_self
        refine (shown_eq_kept_iff (List.getElem?_eq_getElem hi) (regionName_eq h hname)
          (stringText_eq h htext) (hstate es[i] he name text hname htext)).mpr fun hstates => ?_
        by_cases hshared : mode ≠ .flat ∧ name ∈ nodeNames defs
        · rw [if_pos hshared]
          exact passes_deblank_iff.mpr fun hmpi =>
            hserve.blanks hstates hmpi hshared.1 es[i] he name text hname htext hshared.2
        · rw [if_neg hshared]
      · rw [shown, kept, List.getElem?_eq_none (Nat.le_of_not_lt hi)]
        rfl

/-- Names that are kept serve all events. -/
theorem NamesKept.serve (h : NamesKept mode defs) (hdefined : ∀ e ∈ es, e.region ∈ regionRefs defs)
    (args : Arguments) : NamesServe mode args defs es where
  room := h.room
  nodes := h.nodes
  regions e he := by
    obtain ⟨name, hname⟩ := exists_region hdefined e he
    exact h.regions _ name hname
  strings e _ name hname := h.strings _ name hname
  blanks _ _ hmode e _ name text hname htext hnode hmpi := by
    rwa [deblank_eq_self.mpr (h.blanks hmode _ name text hname htext hnode)] at hmpi

/-- **Filters keep pushes and pops paired**: in tau2paje always, and in otf22paje where the names
    that were defined are the ones that are found. -/
theorem filters_keep_pairs {targs : Tau.Arguments} {cs : List Tau.Callback}
    (htau : Tau.Nested targs cs) (resolution : ℚ) (h : WellDefined defs)
    (hdefined : ∀ e ∈ es, e.region ∈ regionRefs defs) (hnested : Nested es) :
    (∀ t ∈ Tau.threads cs, Tau.StatesPaired targs resolution cs t) ∧
      (RegionsPaired mode args defs es ↔ NamesServe mode args defs es) :=
  ⟨fun _ ht => Tau.statesPaired htau resolution ht, regionsPaired_iff h hdefined hnested⟩

/-- A state and one inside it that was not defined. -/
def stateInState : List Tau.Callback :=
  [.defState 7 "MPI_Send()".toList 1, .defThread 0 0 "a".toList, .enterState 1 0 0 7,
    .enterState 2 0 0 8, .leaveState 3 0 0 8, .leaveState 4 0 0 7, .endTrace 0 0]

/-- A region inside another, on one location. -/
def regionInRegion : List Event := [.enter 1 0 4, .enter 2 0 7, .leave 3 0 7, .leave 4 0 4]

theorem filters_keep_pairs_stateInState :
    (∀ t ∈ Tau.threads stateInState, Tau.StatesPaired Tau.normalizing 1 stateInState t) ∧
      RegionsPaired .default ⟨false, false, true⟩ sharedName regionInRegion := by
  have hdefined : ∀ e ∈ regionInRegion, e.region ∈ regionRefs sharedName := by decide +kernel
  have htau : Tau.Nested Tau.normalizing stateInState := by decide +kernel
  have hnested : Nested regionInRegion := by decide +kernel
  obtain ⟨hpaired, hiff⟩ := filters_keep_pairs htau 1 sharedName_wellDefined hdefined hnested
  exact ⟨hpaired, hiff.mpr (sharedName_kept.serve hdefined _)⟩

/-- A visit to the region whose name is lost. -/
def lostVisit : List Event := [.enter 1 0 0, .leave 2 0 0]

/-- **The name of the region is gone** when it is entered. -/
theorem not_regionsPaired : WellDefined backwards ∧ Nested lostVisit ∧
    (∀ e ∈ lostVisit, e.region ∈ regionRefs backwards) ∧
      ¬ RegionsPaired .default ⟨false, false, false⟩ backwards lostVisit := by
  refine ⟨⟨by decide, by decide, by decide⟩, by decide +kernel, by decide, ?_⟩
  rintro ⟨names, rounds, hrun, -, hevents, -⟩
  have hfound := runEvents_isSome_iff.mp ⟨rounds, hevents⟩ (.enter 1 0 0) List.mem_cons_self
  have hlost : (Names.run .default Names.init backwards).bind (·.stateName 0) = none := by decide
  rw [hrun, Option.bind_some] at hlost
  rw [Event.region, hlost] at hfound
  cases hfound

end Otf2
end Akypuera

import Akypuera.Lib.Trees
import Akypuera.Otf2.Output

/-!
# What the definitions write

Strings and regions write nothing, wherever they stand. The nodes of the system tree plant their
containers (`nodes_planted`), and the first location declares the types of the threads, under the
class of its own node, before the containers of all of them (`locations_lines`). So the lines of all
definitions are known from the definitions alone (`definitions_lines`).
-/

set_option autoImplicit false

namespace Akypuera
namespace Otf2

open CText Scene

variable {args : Arguments} {mode : Mode} {st st' st₀ : State} {nodes : List Node} {node : Node}
  {types containers : List Str} {groups : List Group} {l : Location} {locations : List Location}
  {rounds : List (Definition × List Paje)}

/-- What a reader sees of some rounds. -/
def linesOf (rounds : List (Definition × List Paje)) : List (Line Str ℚ) :=
  (rounds.flatMap Prod.snd).map Paje.line

theorem linesOf_append (rounds rounds' : List (Definition × List Paje)) :
    linesOf (rounds ++ rounds') = linesOf rounds ++ linesOf rounds' := by
  rw [linesOf, List.flatMap_append, List.map_append]
  rfl

theorem linesOf_cons (d : Definition) (outs : List Paje) (rounds : List (Definition × List Paje)) :
    linesOf ((d, outs) :: rounds) = outs.map Paje.line ++ linesOf rounds :=
  List.map_append

/-! ## Nodes -/

/-- The container of a node that comes after others. -/
def spotOf (text : UInt32 → Str) (before : List Node) (node : Node) : Spot Str where
  name := node.container text
  type := node.classRead text before
  parent := containerAbove text before node.parent
  parentType := typeAbove (classesRead text before) node.parent

def spotsFrom (text : UInt32 → Str) : List Node → List Node → List (Spot Str)
  | _, [] => []
  | before, node :: nodes => spotOf text before node :: spotsFrom text (before ++ [node]) nodes

/-- The containers of all nodes. -/
def spots (text : UInt32 → Str) (nodes : List Node) : List (Spot Str) := spotsFrom text [] nodes

theorem spotsFrom_snoc (text : UInt32 → Str) (before nodes : List Node) (node : Node) :
    spotsFrom text before (nodes ++ [node]) =
      spotsFrom text before nodes ++ [spotOf text (before ++ nodes) node] := by
  induction nodes generalizing before with
  | nil => simp [spotsFrom]
  | cons first nodes ih => simp [spotsFrom, ih]

theorem spots_snoc (text : UInt32 → Str) (nodes : List Node) (node : Node) :
    spots text (nodes ++ [node]) = spots text nodes ++ [spotOf text nodes node] :=
  spotsFrom_snoc text [] nodes node

theorem spots_name (text : UInt32 → Str) (nodes : List Node) :
    (spots text nodes).map Spot.name = nodes.map (Node.container text) := by
  induction nodes using List.reverseRecOn with
  | nil => rfl
  | append_singleton nodes node ih =>
    rw [spots_snoc, List.map_append, List.map_append, ih]
    rfl

theorem spots_type (text : UInt32 → Str) (nodes : List Node) :
    (spots text nodes).map Spot.type = classesRead text nodes := by
  induction nodes using List.reverseRecOn with
  | nil => rfl
  | append_singleton nodes node ih =>
    rw [spots_snoc, List.map_append, ih, classesRead_snoc]
    rfl

theorem length_spots (text : UInt32 → Str) (nodes : List Node) :
    (spots text nodes).length = nodes.length := by
  rw [← length_classesRead text, ← spots_type, List.length_map]

theorem typeAbove_undefined (h : types.length < 2 ^ 32 - 1) :
    typeAbove types undefinedNode = sZero := by
  rw [typeAbove, List.getElem?_eq_none]
  · rfl
  · have heq : undefinedNode.toNat = 2 ^ 32 - 1 := rfl
    omega

/-- A container that belongs to a node, with its class. -/
theorem spots_at (text : UInt32 → Str) {p : UInt32} (h : p.toNat < nodes.length) :
    ∃ q ∈ spots text nodes, q.name = containerAbove text nodes p ∧
      q.type = typeAbove (classesRead text nodes) p := by
  have hlt : p.toNat < (spots text nodes).length := by rwa [length_spots]
  refine ⟨(spots text nodes)[p.toNat], List.getElem_mem hlt, ?_, ?_⟩
  · rw [containerAbove, ← List.getElem?_map, ← spots_name, List.getElem?_map,
      List.getElem?_eq_getElem hlt]
    rfl
  · rw [typeAbove, ← spots_type, List.getElem?_map, List.getElem?_eq_getElem hlt]
    rfl

/-- **Every node is below what comes before it.** -/
theorem ranked_spots {text : UInt32 → Str} {defined : UInt32 → Prop}
    (ho : NodesOrdered defined nodes) (hlen : nodes.length < 2 ^ 31) :
    Ranked sZero (spots text nodes) := by
  induction nodes using List.reverseRecOn with
  | nil =>
    intro before p after heq
    cases before <;> cases heq
  | append_singleton nodes node ih =>
    rw [List.length_append, List.length_singleton] at hlen
    rw [spots_snoc]
    refine (ih ho.init (by omega)).snoc ?_
    rcases ho.last.2 with hroot | hlt
    · left
      constructor
      · rw [spotOf, hroot]
        exact containerAbove_undefined text (by omega)
      · rw [spotOf, hroot]
        exact typeAbove_undefined (by rw [length_classesRead]; omega)
    · obtain ⟨q, hq, hname, htype⟩ := spots_at text hlt
      exact .inr ⟨q, hq, hname, htype⟩

/-- What is read at a node is its class. -/
theorem NodesFit.typeAbove {text : UInt32 → Str} (h : NodesFit text nodes types) {p : UInt32}
    (hp : p = undefinedNode ∨ p.toNat < types.length) :
    typeAbove types p = Otf2.typeAbove (classesRead text nodes) p := by
  have hroom := h.room
  have hle := h.length_le
  rcases hp with rfl | hlt
  · rw [typeAbove_undefined (by omega), typeAbove_undefined (by rw [length_classesRead]; omega)]
  · obtain ⟨rest, hrest⟩ := h.first
    rw [Otf2.typeAbove, Otf2.typeAbove, ← hrest, List.getElem?_append_left hlt]

theorem NodesFit.mem_iff {text : UInt32 → Str} (h : NodesFit text nodes types) (type : Str) :
    type ∈ types ↔ type ∈ (spots text nodes).map Spot.type := by
  rw [spots_type]
  exact ⟨fun hmem => h.first.subset hmem, fun hmem => h.all hmem⟩

/-- What one node writes. -/
theorem lines_nodeOuts {text : UInt32 → Str} (hdummy : args.dummy = false)
    (h : NodesFit text nodes types) (hf : node.Fits text nodes types) :
    (nodeOuts args types (node.classRead text nodes) (typeAbove types node.parent)
      (node.container text) (containerAbove text nodes node.parent)).map Paje.line =
        (spotOf text nodes node).lines 0 (spots text nodes) := by
  have hmem : node.classRead text nodes ∈ types ↔
      (spotOf text nodes node).type ∈ (spots text nodes).map Spot.type := h.mem_iff _
  rw [nodeOuts, if_neg (by simp [hdummy]), h.typeAbove hf.above, List.map_append, Spot.lines]
  by_cases hold : node.classRead text nodes ∈ types
  · rw [if_pos hold, if_pos (hmem.mp hold)]
    rfl
  · rw [if_neg hold, if_neg (mt hmem.mpr hold)]
    rfl

/-- **The nodes plant their containers.** -/
theorem nodes_planted (hdummy : args.dummy = false) (ho : NodesOrdered st₀.names.Readable nodes)
    (hinit : st₀.tree.Holds [] []) (hf : NodesFit st₀.names.text nodes types)
    (hrun : run args .default st₀ (defineNodes nodes) = some (st, rounds)) :
    linesOf rounds = plant 0 (spots st₀.names.text nodes) := by
  induction nodes using List.reverseRecOn generalizing types st rounds with
  | nil =>
    cases hrun
    rfl
  | append_singleton nodes node ih =>
    obtain ⟨before, hbefore, hfits, rfl⟩ := hf.unsnoc ho.init.ordered ho.last.2
    obtain ⟨st₁, rounds₁, hrun₁, hdone, -⟩ := nodes_run args ho.init hinit hbefore
    obtain ⟨st₂, hcall, -⟩ := hdone.step args ho.last.1 ho.last.2 hfits
    rw [defineNodes_snoc, run_append, hrun₁, Option.bind_some, run_singleton, hcall] at hrun
    cases hrun
    rw [linesOf_append, ih ho.init hbefore hrun₁, spots_snoc, plant_snoc]
    rw [linesOf_cons, lines_nodeOuts hdummy hbefore hfits]
    exact congrArg _ (List.append_nil _)

/-! ## Locations -/

/-- The container that a location belongs under. -/
def Location.above (text : UInt32 → Str) (nodes : List Node) (groups : List Group) (l : Location) :
    Str := containerAbove text nodes (nodeOf groups l)

/-- The container of a location. -/
def Location.create (text : UInt32 → Str) (nodes : List Node) (groups : List Group) (l : Location) :
    Line Str ℚ := .create 0 (threadStr l.self) sThread (l.above text nodes groups) (threadStr l.self)

/-- The types that the first location declares, under the class of its node. -/
def threadTypes (type : Str) : List (Line Str ℚ) :=
  [.containerType sThread type, .stateType sState sThread, .linkType sLink sZero sThread sThread]

/-- What one location writes. -/
theorem lines_locationOuts (hdummy : args.dummy = false) (new : Bool) (type : Str)
    (text : UInt32 → Str) (nodes : List Node) (groups : List Group) (l : Location) :
    (locationOuts args new type (containerAbove text nodes (nodeOf groups l)) l.self).map Paje.line =
      (if new then threadTypes type else []) ++ [l.create text nodes groups] := by
  rw [locationOuts, if_neg (by simp [hdummy]), List.map_append]
  cases new <;> rfl

/-- When "thread" is there, -/
theorem LocationsReady.lines_found (hdummy : args.dummy = false)
    (h : LocationsReady st₀ nodes groups st)
    (ho : LocationsOrdered st₀.names.Readable nodes groups locations)
    (hfound : st.tree.findTypeTreeName sThread = some true)
    (hrun : Otf2.run args mode st (defineLocations locations) = some (st', rounds)) :
    linesOf rounds = locations.map (Location.create st₀.names.text nodes groups) := by
  induction locations generalizing st rounds with
  | nil =>
    cases hrun
    rfl
  | cons l locations ih =>
    obtain ⟨st₁, outs, hcall, -⟩ := call_of_run (Option.isSome_of_mem hrun)
    have hread := hcall
    rw [h.call_eq args mode ho List.mem_cons_self] at hread
    obtain ⟨type, htype, -⟩ := Option.bind_eq_some_iff.mp hread
    rw [h.call_found args mode ho List.mem_cons_self hfound htype] at hcall
    cases hcall
    rw [defineLocations, List.map_cons, run_cons (h.call_found args mode ho List.mem_cons_self hfound
      htype)] at hrun
    obtain ⟨⟨st₂, rest⟩, hrest, heq⟩ := Option.map_eq_some_iff.mp hrun
    cases heq
    have hlines := ih (h.next rfl (st.locations ++ [l.self]))
      (ho.sublist (List.subset_cons_self l locations)) hfound hrest
    rw [List.map_cons, ← hlines, linesOf_cons, lines_locationOuts hdummy]
    rfl

/-- **and when no class is called so**, the first location declares it. -/
theorem LocationsReady.lines_first (hdummy : args.dummy = false)
    (h : LocationsReady st₀ nodes groups st) (hholds : st.tree.Holds types containers)
    (ho : LocationsOrdered st₀.names.Readable nodes groups (l :: locations))
    (hf : LocationsFit types groups (l :: locations)) (hnew : sThread ∉ types)
    (hrun : Otf2.run args mode st (defineLocations (l :: locations)) = some (st', rounds)) :
    linesOf rounds = threadTypes (typeAbove types (nodeOf groups l)) ++
      (l :: locations).map (Location.create st₀.names.text nodes groups) := by
  have hhead := hf.head l rfl
  obtain ⟨hindex, hroom⟩ := hf.thread _ (threadAt_cons hnew l locations)
  obtain ⟨tree', hcall, hfound, -, hcontainers⟩ :=
    h.first args mode hholds ho List.mem_cons_self hnew hhead hindex hroom
  rw [defineLocations, List.map_cons, run_cons hcall] at hrun
  obtain ⟨⟨st₂, rest⟩, hrest, heq⟩ := Option.map_eq_some_iff.mp hrun
  cases heq
  have hlines := (h.next hcontainers (st.locations ++ [l.self])).lines_found hdummy
    (ho.sublist (List.subset_cons_self l locations)) hfound hrest
  have htype : typeAbove types (nodeOf groups l) = types[(nodeOf groups l).toNat] := by
    rw [typeAbove, List.getElem?_eq_getElem hhead]
    rfl
  rw [List.map_cons, ← hlines, linesOf_cons, lines_locationOuts hdummy, if_pos rfl, htype,
    List.append_assoc, List.singleton_append]

/-! ## All definitions -/

/-- The location that a definition adds. -/
def Definition.newLocation : Definition → Option UInt64
  | .location self _ _ _ => some self
  | _ => none

theorem locations_of_call {d : Definition} {outs : List Paje}
    (h : d.call args .default st = some (st', outs)) :
    st'.locations = st.locations ++ d.newLocation.toList := by
  cases d with
  | string self text =>
    obtain ⟨names, -, heq⟩ := Option.map_eq_some_iff.mp h
    cases heq
    exact (List.append_nil _).symm
  | region self name =>
    obtain ⟨names, -, heq⟩ := Option.map_eq_some_iff.mp h
    cases heq
    exact (List.append_nil _).symm
  | systemTreeNode self name className parent =>
    obtain ⟨_, -, h⟩ := Option.bind_eq_some_iff.mp h
    obtain ⟨_, -, h⟩ := Option.bind_eq_some_iff.mp h
    obtain ⟨_, -, h⟩ := Option.bind_eq_some_iff.mp h
    obtain ⟨_, -, h⟩ := Option.bind_eq_some_iff.mp h
    obtain ⟨_, -, h⟩ := Option.bind_eq_some_iff.mp h
    cases h
    exact (List.append_nil _).symm
  | locationGroup self name systemTreeParent =>
    obtain ⟨_, -, h⟩ := Option.bind_eq_some_iff.mp h
    cases h
    exact (List.append_nil _).symm
  | location self name locationType group =>
    obtain ⟨_, -, h⟩ := Option.bind_eq_some_iff.mp h
    obtain ⟨_, -, h⟩ := Option.bind_eq_some_iff.mp h
    obtain ⟨_, -, h⟩ := Option.bind_eq_some_iff.mp h
    obtain ⟨_, -, h⟩ := Option.bind_eq_some_iff.mp h
    obtain ⟨_, -, h⟩ := Option.bind_eq_some_iff.mp h
    cases h
    rfl

theorem locations_of_run {ds : List Definition}
    (h : run args .default st ds = some (st', rounds)) :
    st'.locations = st.locations ++ ds.filterMap Definition.newLocation := by
  induction ds generalizing st rounds with
  | nil =>
    cases h
    exact (List.append_nil _).symm
  | cons d ds ih =>
    obtain ⟨st₁, outs, hcall, -⟩ := call_of_run (Option.isSome_of_mem h)
    rw [run_cons hcall] at h
    obtain ⟨⟨st₂, rest⟩, hrun, heq⟩ := Option.map_eq_some_iff.mp h
    cases heq
    rw [ih hrun, locations_of_call hcall, List.filterMap_cons]
    cases d.newLocation <;> simp

theorem Stream.newLocations (s : Stream) :
    s.definitions.filterMap Definition.newLocation = s.locations.map Location.self := by
  have hnodes : (defineNodes s.nodes).filterMap Definition.newLocation = [] := by
    refine List.filterMap_eq_nil_iff.mpr fun d hd => ?_
    obtain ⟨k, hk, rfl⟩ := List.mem_mapIdx.mp hd
    rfl
  have hgroups : (defineGroups s.groups).filterMap Definition.newLocation = [] := by
    refine List.filterMap_eq_nil_iff.mpr fun d hd => ?_
    obtain ⟨k, hk, rfl⟩ := List.mem_mapIdx.mp hd
    rfl
  rw [Stream.definitions, List.filterMap_append, List.filterMap_append, hnodes, hgroups,
    List.nil_append, List.nil_append, defineLocations, List.filterMap_map, ← List.filterMap_eq_map]
  rfl

/-- A string or a region. -/
def Definition.isName : Definition → Bool
  | .string _ _ | .region _ _ => true
  | _ => false

theorem newLocations_isName {ds : List Definition} (h : ∀ d ∈ ds, d.isName = true) :
    ds.filterMap Definition.newLocation = [] := by
  refine List.filterMap_eq_nil_iff.mpr fun d hd => ?_
  cases d with
  | location self name locationType group => exact absurd (h _ hd) Bool.false_ne_true
  | _ => rfl

/-- **Strings and regions write nothing**, and leave all but the names alone. -/
theorem run_isName {ds : List Definition} (hds : ∀ d ∈ ds, d.isName = true)
    (h : run args .default st ds = some (st', rounds)) :
    (∃ names, st' = { st with names := names }) ∧ linesOf rounds = [] := by
  induction ds generalizing st rounds with
  | nil =>
    cases h
    exact ⟨⟨_, rfl⟩, rfl⟩
  | cons d ds ih =>
    obtain ⟨st₁, outs, hcall, -⟩ := call_of_run (Option.isSome_of_mem h)
    rw [run_cons hcall] at h
    obtain ⟨⟨st₂, rest⟩, hrun, heq⟩ := Option.map_eq_some_iff.mp h
    cases heq
    obtain ⟨⟨names, hst⟩, hlines⟩ := ih (fun d' hd' => hds d' (List.mem_cons_of_mem _ hd')) hrun
    have hone : (∃ names, st₁ = { st with names := names }) ∧ outs = [] := by
      cases d with
      | string self text | region self name =>
        obtain ⟨names, -, heq⟩ := Option.map_eq_some_iff.mp hcall
        cases heq
        exact ⟨⟨names, rfl⟩, rfl⟩
      | _ => exact absurd (hds _ List.mem_cons_self) Bool.false_ne_true
    obtain ⟨⟨names₁, rfl⟩, rfl⟩ := hone
    exact ⟨⟨names, hst⟩, hlines⟩

/-- The class of a location's node. -/
def Location.classAbove (text : UInt32 → Str) (nodes : List Node) (groups : List Group)
    (l : Location) : Str := typeAbove (classesRead text nodes) (nodeOf groups l)

/-- What the definitions of a stream write. -/
theorem Stream.lines (hdummy : args.dummy = false) (hfresh : Fresh st₀) {s : Stream}
    (ho : s.Ordered st₀.names.Readable) (hlocations : s.locations = l :: locations)
    (hnew : sThread ∉ classesRead st₀.names.text s.nodes)
    (hrun : run args .default st₀ s.definitions = some (st, rounds)) :
    s.nodes.length < 2 ^ 31 ∧
      linesOf rounds = plant 0 (spots st₀.names.text s.nodes) ++
        (threadTypes (l.classAbove st₀.names.text s.nodes s.groups) ++
          s.locations.map (Location.create st₀.names.text s.nodes s.groups)) := by
  obtain ⟨types, hn, hl⟩ := Stream.fit_of_run hfresh ho (Option.isSome_of_mem hrun)
  obtain ⟨st₁, rounds₁, hrun₁, hdone, -⟩ := nodes_run args ho.nodes hfresh.holds hn
  have hgroups := groups_run args st₁ fun group hg => hdone.readable (ho.locations.groupNames group hg)
  have hready := hdone.ready hfresh
  have hol := ho.locations
  rw [Stream.definitions, run_append, hrun₁, Option.bind_some, run_append, hgroups,
    Option.bind_some, hlocations] at hrun
  rw [hlocations] at hl hol
  obtain ⟨⟨st₂, rest⟩, hrest, heq⟩ := Option.map_eq_some_iff.mp hrun
  cases heq
  obtain ⟨⟨st₃, rounds₃⟩, hrun₃, heq⟩ := Option.map_eq_some_iff.mp hrest
  cases heq
  have hnone : linesOf ((defineGroups s.groups).map fun d => (d, [])) = [] := by
    rw [linesOf, List.flatMap_map, List.flatMap_eq_nil_iff.mpr fun _ _ => rfl]
    rfl
  have hthread : sThread ∉ types := fun hmem => hnew (hn.first.subset hmem)
  have hclass : typeAbove types (nodeOf s.groups l) =
      l.classAbove st₀.names.text s.nodes s.groups := hn.typeAbove (.inr (hl.head l rfl))
  refine ⟨hn.room, ?_⟩
  rw [linesOf_append, linesOf_append, nodes_planted hdummy ho.nodes hfresh.holds hn hrun₁, hnone,
    List.nil_append, hready.lines_first hdummy hdone.holds hol hl hthread hrun₃, hclass, hlocations]

/-! ## An archive -/

/-- A stream, with strings and regions before and after it. -/
structure Archive where
  before : List Definition
  stream : Stream
  after : List Definition

namespace Archive

variable {a : Archive}

def definitions (a : Archive) : List Definition := a.before ++ (a.stream.definitions ++ a.after)

/-- The strings that the nodes find. -/
def text (a : Archive) (i : UInt32) : Str := (textsAfter .default a.before i.toNat).getD []

/-- Whatever the stream refers to comes before. -/
structure Ordered (a : Archive) : Prop where
  named : ∀ d ∈ a.before ++ a.after, d.isName = true
  stream : a.stream.Ordered fun i => (textsAfter .default a.before i.toNat).isSome = true

/-- The containers of the nodes. -/
def spots (a : Archive) : List (Spot Str) := Otf2.spots a.text a.stream.nodes

/-- The classes of the nodes. -/
def classes (a : Archive) : List Str := classesRead a.text a.stream.nodes

/-- The container that a location belongs under, -/
def above (a : Archive) (l : Location) : Str := l.above a.text a.stream.nodes a.stream.groups

/-- and its class. -/
def classAbove (a : Archive) (l : Location) : Str :=
  l.classAbove a.text a.stream.nodes a.stream.groups

/-- The container of a location. -/
def create (a : Archive) (l : Location) : Line Str ℚ :=
  .create 0 (threadStr l.self) sThread (a.above l) (threadStr l.self)

/-- **What the definitions write**, and the locations that `main` has in the end. -/
theorem definitions_lines (hdummy : args.dummy = false) (ho : a.Ordered)
    (hlocations : a.stream.locations = l :: locations) (hnew : sThread ∉ a.classes)
    (hrun : run args .default State.init a.definitions = some (st, rounds)) :
    a.stream.nodes.length < 2 ^ 31 ∧ st.locations = a.stream.locations.map Location.self ∧
      linesOf rounds =
        plant 0 a.spots ++ (threadTypes (a.classAbove l) ++ a.stream.locations.map a.create) := by
  have hkept := locations_of_run hrun
  have hbefore' := fun d hd => ho.named d (List.mem_append_left a.after hd)
  have hafter' := fun d hd => ho.named d (List.mem_append_right a.before hd)
  rw [definitions, run_append] at hrun
  obtain ⟨⟨st₀, rounds₀⟩, hbefore, hrun⟩ := Option.bind_eq_some_iff.mp hrun
  obtain ⟨⟨_, _⟩, hrest, heq⟩ := Option.map_eq_some_iff.mp hrun
  cases heq
  rw [run_append] at hrest
  obtain ⟨⟨st₁, rounds₁⟩, hstream, hlast⟩ := Option.bind_eq_some_iff.mp hrest
  obtain ⟨⟨_, rounds₂⟩, hafter, heq⟩ := Option.map_eq_some_iff.mp hlast
  cases heq
  obtain ⟨⟨names, rfl⟩, hnone⟩ := run_isName hbefore' hbefore
  obtain ⟨-, hnone'⟩ := run_isName hafter' hafter
  -- the strings are those that the definitions before the stream leave
  have htexts := (tables_of_run (run_names hbefore)).texts
  have hreadable : names.Readable = fun i => (textsAfter .default a.before i.toNat).isSome = true :=
    funext fun i => by rw [Names.Readable, ← htexts]
  have htext : names.text = a.text := funext fun i => by rw [Names.text, text, ← htexts]
  have hfresh : Fresh { State.init with names := names } := ⟨Tree.Holds.init, rfl⟩
  obtain ⟨hlen, hlines⟩ := Stream.lines hdummy hfresh (hreadable ▸ ho.stream) hlocations
    (htext ▸ hnew) hstream
  refine ⟨hlen, hkept.trans ?_, ?_⟩
  · rw [definitions, List.filterMap_append, List.filterMap_append, Stream.newLocations,
      newLocations_isName hbefore', newLocations_isName hafter', List.nil_append, List.append_nil]
    rfl
  · rw [linesOf_append, linesOf_append, hnone, hnone', hlines, List.nil_append, List.append_nil]
    rw [show ({ State.init with names := names } : State).names.text = a.text from htext]
    rfl

end Archive

end Otf2
end Akypuera

import Akypuera.Otf2.Regions
import Akypuera.Otf2.Stream

/-!
# Locations in the three modes

`main` registers the one callback for locations in all three modes, but only the default mode has a
callback that remembers the nodes of the groups. So with `--flat` and `--hostfile` **no location
resolves**; in the default mode they all do exactly when nothing is lost on the way to them
(`Stream.Resolvable`).
-/

set_option autoImplicit false

namespace Akypuera
namespace Otf2

open CText

variable {args : Arguments} {mode : Mode} {st st' : State} {d : Definition} {s : Stream}
  {strings : List (UInt32 × Str)}

/-! ## Strings -/

def defineStrings (strings : List (UInt32 × Str)) : List Definition :=
  strings.map fun p => .string p.1 p.2

/-- The string that a reference stands for. -/
def textOf (strings : List (UInt32 × Str)) (i : UInt32) : Str :=
  ((strings.find? fun p => p.1 = i).map Prod.snd).getD []

theorem stringRefs_defineStrings (strings : List (UInt32 × Str)) :
    stringRefs (defineStrings strings) = strings.map Prod.fst := by
  induction strings with
  | nil => rfl
  | cons p strings ih => exact congrArg (p.1 :: ·) ih

theorem textOf_of_mem {p : UInt32 × Str} (hnodup : (strings.map Prod.fst).Nodup)
    (h : p ∈ strings) : textOf strings p.1 = p.2 := by
  induction strings with
  | nil => exact absurd h List.not_mem_nil
  | cons q strings ih =>
    rw [List.map_cons, List.nodup_cons] at hnodup
    rcases List.mem_cons.mp h with rfl | h
    · simp [textOf]
    · have hne : q.1 ≠ p.1 := fun heq => hnodup.1 (heq ▸ List.mem_map_of_mem h)
      have hrest := ih hnodup.2 h
      rw [textOf] at hrest ⊢
      rwa [List.find?_cons_of_neg (by simpa using hne)]

/-- Strings are in OTF2's order, whatever their references. -/
theorem wellDefined_defineStrings (hnodup : (strings.map Prod.fst).Nodup) :
    WellDefined (defineStrings strings) := by
  have hmem : ∀ d ∈ defineStrings strings, ∃ p ∈ strings, .string p.1 p.2 = d := fun d hd =>
    List.mem_map.mp hd
  refine ⟨by rwa [stringRefs_defineStrings], ?_, ?_⟩
  · have hnil : regionRefs (defineStrings strings) = [] := by
      apply List.filterMap_eq_nil_iff.mpr
      intro d hd
      obtain ⟨p, -, rfl⟩ := hmem d hd
      rfl
    rw [hnil]
    exact List.nodup_nil
  · intro k hk
    obtain ⟨p, -, heq⟩ := hmem _ (List.getElem_mem hk)
    rw [← heq]
    exact List.nil_subset _

/-- Strings go through when there is room for all of them, -/
theorem strings_run (args : Arguments) (mode : Mode) (st : State)
    (h : ∀ p ∈ strings, p.1.toNat + 1 < 2 ^ 31) :
    ∃ names, run args mode st (defineStrings strings) =
      some ({ st with names := names }, (defineStrings strings).map fun d => (d, [])) := by
  induction strings generalizing st with
  | nil => exact ⟨st.names, rfl⟩
  | cons p strings ih =>
    have hroom := h p List.mem_cons_self
    obtain ⟨names, hnames⟩ : ∃ names, st.names.string p.1 p.2 = some names := by
      simp only [Names.string, Cells.write_resize, if_pos hroom, Option.bind_eq_bind,
        Option.bind_some]
      exact ⟨_, rfl⟩
    have hcall : (Definition.string p.1 p.2).call args mode st =
        some ({ st with names := names }, []) := by
      rw [Definition.call, hnames]
      rfl
    obtain ⟨names', hrun⟩ := ih { st with names := names } fun q hq =>
      h q (List.mem_cons_of_mem _ hq)
    refine ⟨names', ?_⟩
    rw [defineStrings, List.map_cons, run_cons hcall]
    exact congrArg (Option.map _) hrun

/-- and only then. -/
theorem room_of_strings_run
    (hrun : (run args mode st (defineStrings strings)).isSome = true) :
    ∀ p ∈ strings, p.1.toNat + 1 < 2 ^ 31 := by
  induction strings generalizing st with
  | nil => exact nofun
  | cons p strings ih =>
    obtain ⟨st₁, outs, hcall, hrest⟩ := call_of_run hrun
    intro q hq
    rcases List.mem_cons.mp hq with rfl | hq
    · obtain ⟨names, hnames, -⟩ := Option.map_eq_some_iff.mp hcall
      obtain ⟨cells, hcells, -⟩ := Option.bind_eq_some_iff.mp hnames
      exact room_of_write hcells
    · exact ih hrest q hq

/-! ## What a location needs -/

/-- The strings that the callbacks of the default mode read. -/
def Definition.lookups : Definition → List UInt32
  | .systemTreeNode _ name className _ => [name, className]
  | .locationGroup _ name _ | .location _ name _ _ => [name]
  | _ => []

/-- **Definitions in order**: strings, nodes, groups and locations, and whatever is referred to
    comes before. -/
structure Stream.WellOrdered (strings : List (UInt32 × Str)) (s : Stream) : Prop where
  refs : (strings.map Prod.fst).Nodup
  ordered : s.Ordered (· ∈ strings.map Prod.fst)

/-- A container that is created by what was written. -/
def Created (written : List Paje) (container : Str) : Prop :=
  ∃ time type above label, .createContainer time container type above label ∈ written

/-- **All locations resolve**: what their callbacks read has been stored, and each container is
    created, under one that was created before. A hostfile is read, and `written`, before the
    definitions. -/
def LocationsResolve (args : Arguments) (mode : Mode) (h : Hierarchy) (written : List Paje)
    (strings : List (UInt32 × Str)) (s : Stream) : Prop :=
  ∀ before l after, s.locations = before ++ l :: after → ∃ st rounds st' outs,
    run args mode { State.init with hierarchy := h } (defineStrings strings ++
      (defineNodes s.nodes ++ (defineGroups s.groups ++ defineLocations before))) =
        some (st, rounds) ∧
    l.define.call args mode st = some (st', outs) ∧
    (args.dummy = false → ∃ container,
      .createContainer 0 (threadStr l.self) sThread container (threadStr l.self) ∈ outs ∧
      Created (written ++ rounds.flatMap Prod.snd) container)

/-- **The condition**, in the default mode: no string that is read has been lost, and the nodes
    and the locations fit. -/
structure Stream.Resolvable (strings : List (UInt32 × Str)) (s : Stream) : Prop where
  room : ∀ p ∈ strings, p.1.toNat + 1 < 2 ^ 31
  kept : ∀ d ∈ s.definitions, ∀ i ∈ d.lookups, ¬ Lost (strings.map Prod.fst) i
  fit : ∃ types, NodesFit (textOf strings) s.nodes types ∧ LocationsFit types s.groups s.locations

/-! ## The modes without groups -/

theorem newGroups_eq_nil (hmode : mode ≠ .default) (d : Definition) : d.newGroups mode = [] := by
  cases d with
  | locationGroup self name systemTreeParent => exact if_neg hmode
  | _ => rfl

theorem run_groups (hmode : mode ≠ .default) {ds : List Definition}
    {rounds : List (Definition × List Paje)} (h : run args mode st ds = some (st', rounds)) :
    st'.groups = st.groups := by
  induction ds generalizing st rounds with
  | nil => cases h; rfl
  | cons d ds ih =>
    obtain ⟨st₁, outs, hcall, -⟩ := call_of_run (Option.isSome_of_mem h)
    rw [run_cons hcall] at h
    obtain ⟨⟨st₂, rest⟩, hrun, heq⟩ := Option.map_eq_some_iff.mp h
    cases heq
    rw [ih hrun, (Effect.of_call hcall).groups, newGroups_eq_nil hmode, List.append_nil]

/-- **Without groups no location resolves.** -/
theorem LocationsResolve.no_locations {h : Hierarchy} {written : List Paje}
    (hr : LocationsResolve args mode h written strings s) (hmode : mode ≠ .default) :
    s.locations = [] := by
  cases hlocs : s.locations with
  | nil => rfl
  | cons l locations =>
    -- the first one already finds no groups
    obtain ⟨st, rounds, st', outs, hrun, hcall, -⟩ := hr [] l locations hlocs
    have hgroups : st.groups = [] := run_groups hmode hrun
    obtain ⟨_, -, hcall⟩ := Option.bind_eq_some_iff.mp hcall
    obtain ⟨group, hgroup, -⟩ := Option.bind_eq_some_iff.mp hcall
    rw [hgroups] at hgroup
    cases hgroup

/-! ## The default mode -/

theorem lookups_of_call {outs : List Paje} (h : d.call args .default st = some (st', outs)) :
    ∀ i ∈ d.lookups, st.names.Readable i := by
  cases d with
  | systemTreeNode self name className parent => exact reads_of_call (Effect.of_call h).names
  | locationGroup self name systemTreeParent =>
    obtain ⟨_, hname, -⟩ := Option.bind_eq_some_iff.mp h
    intro i hi
    rw [List.mem_singleton.mp hi]
    exact Option.isSome_of_mem hname
  | location self name locationType group =>
    obtain ⟨_, hname, -⟩ := Option.bind_eq_some_iff.mp h
    intro i hi
    rw [List.mem_singleton.mp hi]
    exact Option.isSome_of_mem hname
  | _ => exact nofun

theorem Stream.lookups_defined {defined : UInt32 → Prop} (h : s.Ordered defined) :
    ∀ d ∈ s.definitions, ∀ i ∈ d.lookups, defined i := by
  intro d hd i hi
  rcases Stream.mem_definitions.mp hd with ⟨k, hk, rfl⟩ | ⟨k, hk, rfl⟩ | ⟨l, hl, rfl⟩
  · have hnode := h.nodes.readable _ (List.getElem_mem hk)
    rcases List.mem_pair.mp hi with rfl | rfl
    · exact hnode.1
    · exact hnode.2
  · rw [List.mem_singleton.mp hi]
    exact h.locations.groupNames _ (List.getElem_mem hk)
  · rw [List.mem_singleton.mp hi]
    exact h.locations.names l hl

/-- The order stays if the strings that are looked up are there. -/
theorem Stream.Ordered.imp {defined defined' : UInt32 → Prop} (h : s.Ordered defined)
    (himp : ∀ d ∈ s.definitions, ∀ i ∈ d.lookups, defined' i) : s.Ordered defined' := by
  refine ⟨⟨fun node hnode => ?_, h.nodes.ordered⟩, fun group hgroup => ?_, h.locations.onNodes,
    fun l hl => ?_, h.locations.inGroups⟩
  · obtain ⟨k, hk, rfl⟩ := List.getElem_of_mem hnode
    have hd := Stream.mem_definitions.mpr (Or.inl ⟨k, hk, rfl⟩)
    exact ⟨himp _ hd _ List.mem_cons_self, himp _ hd _ (List.mem_cons_of_mem _ List.mem_cons_self)⟩
  · obtain ⟨k, hk, rfl⟩ := List.getElem_of_mem hgroup
    have hd := Stream.mem_definitions.mpr (Or.inr (Or.inl ⟨k, hk, rfl⟩))
    exact himp _ hd _ List.mem_cons_self
  · have hd := Stream.mem_definitions.mpr (Or.inr (Or.inr ⟨l, hl, rfl⟩))
    exact himp _ hd _ List.mem_cons_self

theorem stringRefs_definitions (s : Stream) : stringRefs s.definitions = [] := by
  apply List.filterMap_eq_nil_iff.mpr
  intro d hd
  rcases Stream.mem_definitions.mp hd with ⟨k, hk, rfl⟩ | ⟨k, hk, rfl⟩ | ⟨l, hl, rfl⟩ <;> rfl

/-- **Whatever is looked up is there**: a run that goes through has lost none of it. -/
theorem kept_of_run {h : Hierarchy} (ho : s.WellOrdered strings)
    (hrun : (run args .default { State.init with hierarchy := h }
      (defineStrings strings ++ s.definitions)).isSome = true) :
    ∀ d ∈ s.definitions, ∀ i ∈ d.lookups, ¬ Lost (strings.map Prod.fst) i := by
  intro d hd i hi
  obtain ⟨front, back, hsplit⟩ := List.append_of_mem hd
  -- only the strings come before it that come before all nodes
  have hnone : stringRefs front ++ stringRefs (d :: back) = [] := by
    rw [← stringRefs_definitions s, hsplit, stringRefs, stringRefs, ← List.filterMap_append]
    rfl
  have hrefs : stringRefs (defineStrings strings ++ front) = strings.map Prod.fst := by
    rw [stringRefs, List.filterMap_append, ← stringRefs, ← stringRefs,
      (List.append_eq_nil_iff.mp hnone).1, List.append_nil, stringRefs_defineStrings]
  rw [hsplit, ← List.append_assoc] at hrun
  obtain ⟨st₁, rounds, hfront, hrest⟩ := prefix_of_run hrun
  obtain ⟨st₂, outs, hcall, -⟩ := call_of_run hrest
  have hread := lookups_of_call hcall i hi
  rw [Names.Readable, (tables_of_run (run_names hfront)).texts, textsAfter_isSome_iff, hrefs] at hread
  · exact hread
  · rw [hrefs]
    exact ho.refs
  · rw [hrefs]
    exact Stream.lookups_defined ho.ordered d hd i hi

/-- The state after the strings. -/
theorem strings_done (args : Arguments) (h : Hierarchy) (ho : s.WellOrdered strings)
    (hroom : ∀ p ∈ strings, p.1.toNat + 1 < 2 ^ 31) :
    ∃ names, run args .default { State.init with hierarchy := h } (defineStrings strings) =
        some ({ State.init with names := names, hierarchy := h },
          (defineStrings strings).map fun d => (d, [])) ∧
      ∀ i ∈ strings.map Prod.fst, ¬ Lost (strings.map Prod.fst) i →
        names.Readable i ∧ names.text i = textOf strings i := by
  obtain ⟨names, hrun⟩ := strings_run args .default { State.init with hierarchy := h } hroom
  refine ⟨names, hrun, ?_⟩
  intro i hi hkept
  have htables := tables_of_run (run_names hrun)
  obtain ⟨p, hp, rfl⟩ := List.mem_map.mp hi
  have hmem : .string p.1 p.2 ∈ defineStrings strings := List.mem_map_of_mem hp
  have hnode : p.1 ∉ nodeNames (defineStrings strings) := fun hnode => by
    obtain ⟨_, _, _, hmem⟩ := mem_nodeNames.mp hnode
    obtain ⟨_, -, heq⟩ := List.mem_map.mp hmem
    cases heq
  have hread : names.stringHash.read p.1.toNat = some p.2 := by
    rw [htables.texts, (wellDefined_defineStrings ho.refs).textsAfter_eq hmem
      (by rwa [stringRefs_defineStrings]), if_neg fun h => hnode h.2]
  refine ⟨Option.isSome_of_mem hread, ?_⟩
  rw [Names.text, hread, textOf_of_mem ho.refs hp]
  rfl

/-- The classes that are read depend on the strings of the classes. -/
theorem classesFrom_congr {text text' : UInt32 → Str} (before : List Node) {nodes : List Node}
    (h : ∀ node ∈ nodes, text node.className = text' node.className) :
    classesFrom text before nodes = classesFrom text' before nodes := by
  induction nodes generalizing before with
  | nil => rfl
  | cons node nodes ih =>
    rw [classesFrom, classesFrom, ih _ fun n hn => h n (List.mem_cons_of_mem _ hn), Node.classRead,
      Node.classRead, h node List.mem_cons_self]

theorem NodesFit.congr {text text' : UInt32 → Str} {nodes : List Node} {types : List Str}
    (hf : NodesFit text nodes types)
    (h : ∀ node ∈ nodes, text node.className = text' node.className) :
    NodesFit text' nodes types := by
  have hclasses : classesRead text nodes = classesRead text' nodes := classesFrom_congr [] h
  exact ⟨hf.room, hclasses ▸ hf.first, hf.nodup, hclasses ▸ hf.all, hf.above⟩

theorem LocationsFit.of_prefix {types : List Str} {groups : List Group}
    {before after : List Location} (h : LocationsFit types groups (before ++ after)) :
    LocationsFit types groups before := by
  cases before with
  | nil => exact ⟨fun index hindex => by simp [threadAt] at hindex, nofun, nofun⟩
  | cons l before => exact ⟨h.thread, h.head, fun l' hl' => h.tail l' (List.mem_append_left _ hl')⟩

/-- A location that goes through creates its container. -/
theorem create_of_location {l : Location} {outs : List Paje}
    (h : l.define.call args mode st = some (st', outs)) (hdummy : args.dummy = false) :
    ∃ container, .createContainer 0 (threadStr l.self) sThread container (threadStr l.self) ∈ outs := by
  obtain ⟨_, -, h⟩ := Option.bind_eq_some_iff.mp h
  obtain ⟨_, -, h⟩ := Option.bind_eq_some_iff.mp h
  obtain ⟨container, -, h⟩ := Option.bind_eq_some_iff.mp h
  obtain ⟨_, -, h⟩ := Option.bind_eq_some_iff.mp h
  obtain ⟨_, -, h⟩ := Option.bind_eq_some_iff.mp h
  cases h
  exact ⟨container, by simp [hdummy]⟩

/-- The sequence with the locations up to one of them. -/
def Stream.upTo (s : Stream) (locations : List Location) : Stream := { s with locations }

theorem Stream.Ordered.upTo {defined : UInt32 → Prop} (h : s.Ordered defined)
    {locations : List Location} (hsub : locations ⊆ s.locations) : (s.upTo locations).Ordered defined :=
  ⟨h.nodes, h.locations.sublist hsub⟩

/-- One location after others. -/
theorem location_resolves (args : Arguments) (hfresh : Fresh st) (ho : s.Ordered st.names.Readable)
    {types : List Str} (hn : NodesFit st.names.text s.nodes types)
    (hl : LocationsFit types s.groups s.locations) {before after : List Location} {l : Location}
    (hsplit : s.locations = before ++ l :: after) :
    ∃ st₁ rounds st₂ outs, run args .default st (s.upTo before).definitions = some (st₁, rounds) ∧
      l.define.call args .default st₁ = some (st₂, outs) ∧
      (args.dummy = false → ∃ container,
        .createContainer 0 (threadStr l.self) sThread container (threadStr l.self) ∈ outs ∧
        Created (rounds.flatMap Prod.snd) container) := by
  have hmem : l ∈ s.locations := hsplit ▸ List.mem_append_right _ List.mem_cons_self
  have hsub : before ++ [l] ⊆ s.locations := by
    rw [hsplit, List.append_cons before l after]
    exact List.subset_append_left _ _
  have hfit : LocationsFit types s.groups (before ++ [l]) := by
    rw [hsplit, List.append_cons] at hl
    exact hl.of_prefix
  obtain ⟨st₃, rounds₃, hrun, hdone⟩ := Stream.run_of_fit args hfresh (ho.upTo hsub) hn hfit
  obtain ⟨st₁, rounds, hrun₁, hdone₁⟩ := Stream.run_of_fit args hfresh
    (ho.upTo (List.Subset.trans (List.subset_append_left _ _) hsub)) hn hfit.of_prefix
  -- the run with this location is the run up to it, and its callback
  have hdefs : (s.upTo (before ++ [l])).definitions = (s.upTo before).definitions ++ [l.define] := by
    simp [Stream.definitions, Stream.upTo, defineLocations]
  rw [hdefs, run_append, hrun₁, Option.bind_some, run_singleton] at hrun
  obtain ⟨_, hlast, heq⟩ := Option.map_eq_some_iff.mp hrun
  obtain ⟨⟨st₂, outs⟩, hcall, rfl⟩ := Option.map_eq_some_iff.mp hlast
  cases heq
  refine ⟨st₁, rounds, st₂, outs, hrun₁, hcall, ?_⟩
  intro hdummy
  obtain ⟨container, hcreate⟩ := create_of_location hcall hdummy
  have hplaced := hdone.placed (l.define, outs) (by simp) _ _ _ _ _ hcreate
  -- the node above has its container
  have hnode := (ho.locations.group hmem).2
  have habove : container = s.nodes[(nodeOf s.groups l).toNat].container st.names.text := by
    rw [hplaced, Location.define, Stream.above, containerAbove]
    exact congrArg (fun n => (Option.map _ n).getD _) (List.getElem?_eq_getElem hnode)
  obtain ⟨round, hround, type, above, hnodes⟩ :=
    hdone₁.created hdummy s.nodes[(nodeOf s.groups l).toNat] (List.getElem_mem hnode)
  rw [← habove] at hnodes
  exact ⟨container, hcreate, 0, type, above, container, List.mem_flatMap.mpr ⟨round, hround, hnodes⟩⟩

/-- Nodes can start after the strings. -/
theorem fresh_after_strings (names : Names) (h : Hierarchy) :
    Fresh { State.init with names := names, hierarchy := h } := ⟨Tree.Holds.init, rfl⟩

theorem Stream.lookups_node {node : Node} (h : node ∈ s.nodes) :
    ∃ d ∈ s.definitions, node.className ∈ d.lookups := by
  obtain ⟨k, hk, rfl⟩ := List.getElem_of_mem h
  exact ⟨s.nodes[k].define k, Stream.mem_definitions.mpr (Or.inl ⟨k, hk, rfl⟩),
    List.mem_cons_of_mem _ List.mem_cons_self⟩

theorem Stream.Resolvable.locationsResolve (hr : s.Resolvable strings) (args : Arguments)
    (h : Hierarchy) (written : List Paje) (ho : s.WellOrdered strings) :
    LocationsResolve args .default h written strings s := by
  intro before l after hsplit
  obtain ⟨names, hrun, hnames⟩ := strings_done args h ho hr.room
  have hstrings : ∀ d ∈ s.definitions, ∀ i ∈ d.lookups,
      names.Readable i ∧ names.text i = textOf strings i := fun d hd i hi =>
    hnames i (Stream.lookups_defined ho.ordered d hd i hi) (hr.kept d hd i hi)
  obtain ⟨types, hn, hl⟩ := hr.fit
  have hfit : NodesFit names.text s.nodes types := by
    apply hn.congr
    intro node hnode
    obtain ⟨d, hd, hi⟩ := Stream.lookups_node hnode
    exact (hstrings d hd _ hi).2.symm
  obtain ⟨st₁, rounds, st₂, outs, hrun₁, hcall, hcreate⟩ := location_resolves args
    (fresh_after_strings names h)
    (ho.ordered.imp fun d hd i hi => (hstrings d hd i hi).1) hfit hl hsplit
  refine ⟨st₁, (defineStrings strings).map (fun d => (d, [])) ++ rounds, st₂, outs, ?_, hcall,
    fun hdummy => ?_⟩
  · rw [run_append, hrun, Option.bind_some]
    exact congrArg (Option.map _) hrun₁
  · obtain ⟨container, hmem, time, type, above, label, hcreated⟩ := hcreate hdummy
    refine ⟨container, hmem, time, type, above, label, List.mem_append_right _ ?_⟩
    rw [List.flatMap_append]
    exact List.mem_append_right _ hcreated

theorem LocationsResolve.resolvable {h : Hierarchy} {written : List Paje}
    (hr : LocationsResolve args .default h written strings s) (ho : s.WellOrdered strings)
    (hlocs : s.locations ≠ []) : s.Resolvable strings := by
  obtain hnil | ⟨before, l, hsplit⟩ := List.eq_nil_or_concat' s.locations
  · exact absurd hnil hlocs
  -- the last location has everything before it
  obtain ⟨st, rounds, st', outs, hrun, hcall, -⟩ := hr before l [] hsplit
  have hwhole : (run args .default { State.init with hierarchy := h }
      (defineStrings strings ++ s.definitions)).isSome = true := by
    have hdefs : defineStrings strings ++ s.definitions = (defineStrings strings ++
        (defineNodes s.nodes ++ (defineGroups s.groups ++ defineLocations before))) ++
          [l.define] := by
      simp [Stream.definitions, hsplit, defineLocations]
    rw [hdefs, run_append, hrun, Option.bind_some, run_singleton, hcall]
    rfl
  obtain ⟨st₁, rounds₁, hstrings, hrest⟩ := prefix_of_run hwhole
  have hroom := room_of_strings_run (Option.isSome_of_mem hstrings)
  have hkept := kept_of_run ho hwhole
  obtain ⟨names, hstrings', hnames⟩ := strings_done args h ho hroom
  cases hstrings.symm.trans hstrings'
  have hlookups : ∀ d ∈ s.definitions, ∀ i ∈ d.lookups,
      names.Readable i ∧ names.text i = textOf strings i := fun d hd i hi =>
    hnames i (Stream.lookups_defined ho.ordered d hd i hi) (hkept d hd i hi)
  obtain ⟨types, hn, hl⟩ := Stream.fit_of_run (fresh_after_strings names h)
    (ho.ordered.imp fun d hd i hi => (hlookups d hd i hi).1) hrest
  refine ⟨hroom, hkept, types, hn.congr fun node hnode => ?_, hl⟩
  obtain ⟨d, hd, hi⟩ := Stream.lookups_node hnode
  exact (hlookups d hd _ hi).2

/-- **Locations resolve when there are none, or in the default mode when nothing is lost.** -/
theorem locationsResolve_iff (args : Arguments) (mode : Mode) (h : Hierarchy) (written : List Paje)
    (ho : s.WellOrdered strings) :
    LocationsResolve args mode h written strings s ↔
      s.locations = [] ∨ mode = .default ∧ s.Resolvable strings := by
  constructor
  · intro hr
    by_cases hlocs : s.locations = []
    · exact Or.inl hlocs
    · by_cases hmode : mode = .default
      · subst hmode
        exact Or.inr ⟨rfl, hr.resolvable ho hlocs⟩
      · exact absurd (hr.no_locations hmode) hlocs
  · rintro (hlocs | ⟨rfl, hr⟩)
    · intro before l after hsplit
      rw [hlocs] at hsplit
      exact absurd hsplit (by simp)
    · exact hr.locationsResolve args h written ho

/-- A machine, one process on it, and its one thread. -/
def oneThread : Stream where
  nodes := [⟨0, 1, undefinedNode⟩]
  groups := [⟨0, 0⟩]
  locations := [⟨0, 0, 1, 0⟩]

def oneThreadStrings : List (UInt32 × Str) := [(0, "a".toList), (1, "machine".toList)]

theorem oneThread_wellOrdered : oneThread.WellOrdered oneThreadStrings :=
  ⟨by decide, ⟨⟨by decide, by decide⟩, by decide, by decide, by decide, by decide⟩⟩

theorem oneThread_resolvable : oneThread.Resolvable oneThreadStrings where
  room := by decide
  kept d hd i hi := by
    have hmem : i ∈ oneThread.definitions.flatMap Definition.lookups :=
      List.mem_flatMap.mpr ⟨d, hd, hi⟩
    have hcase : i = 0 ∨ i = 1 ∨ i = 0 := by
      rw [show oneThread.definitions.flatMap Definition.lookups = [0, 1, 0, 0] from rfl] at hmem
      simpa using hmem
    rcases hcase with rfl | rfl | rfl <;> decide
  fit := by
    refine ⟨["machine".toList], ⟨by decide, by decide, by decide, by decide, by decide⟩, ?_⟩
    refine ⟨fun index hindex => ?_, fun l hl => ?_, fun l hl => absurd hl List.not_mem_nil⟩
    · cases hindex
      decide
    · cases hl
      decide

theorem locationsResolve_iff_oneThread :
    LocationsResolve ⟨false, false, false⟩ .default Hierarchy.init [] oneThreadStrings oneThread :=
  (locationsResolve_iff ⟨false, false, false⟩ .default Hierarchy.init [] oneThread_wellOrdered).mpr
    (.inr ⟨rfl, oneThread_resolvable⟩)

/-- **With `--flat` the thread does not resolve.** -/
theorem not_locationsResolve : oneThread.WellOrdered oneThreadStrings ∧
    ¬ LocationsResolve ⟨false, false, false⟩ .flat Hierarchy.init [] oneThreadStrings oneThread :=
  ⟨oneThread_wellOrdered, fun hr => absurd (hr.no_locations nofun) nofun⟩

end Otf2
end Akypuera

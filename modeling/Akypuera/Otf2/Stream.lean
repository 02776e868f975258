import Akypuera.Otf2.Locations

/-!
# Definitions in OTF2 order, in the default mode

Nodes, then groups, then locations. The run goes through exactly when the nodes fit and the
locations fit (`Stream.run_of_fit`, `Stream.fit_of_run`), and `Stream.Done` says what it leaves.
-/

set_option autoImplicit false

namespace Akypuera
namespace Otf2

open CText

/-- System tree nodes numbered from 0, location groups numbered from 0, and locations. -/
structure Stream where
  nodes : List Node
  groups : List Group
  locations : List Location

def Stream.definitions (s : Stream) : List Definition :=
  defineNodes s.nodes ++ (defineGroups s.groups ++ defineLocations s.locations)

theorem Stream.mem_definitions {s : Stream} {d : Definition} : d ∈ s.definitions ↔
    (∃ k, ∃ hk : k < s.nodes.length, s.nodes[k].define k = d) ∨
      (∃ k, ∃ hk : k < s.groups.length, s.groups[k].define k = d) ∨
        ∃ l ∈ s.locations, l.define = d := by
  rw [Stream.definitions, List.mem_append, List.mem_append, defineNodes, defineGroups,
    defineLocations, List.mem_mapIdx, List.mem_mapIdx, List.mem_map]

/-- Whatever is referred to comes before, and the strings are defined. -/
structure Stream.Ordered (defined : UInt32 → Prop) (s : Stream) : Prop where
  nodes : NodesOrdered defined s.nodes
  locations : LocationsOrdered defined s.nodes s.groups s.locations

/-- Before the first node. -/
structure Fresh (st₀ : State) : Prop where
  holds : st₀.tree.Holds [] []
  groups : st₀.groups = []

/-- The container that a definition's container belongs under. -/
def Stream.above (text : UInt32 → Str) (s : Stream) : Definition → Str
  | .systemTreeNode _ _ _ parent => containerAbove text s.nodes parent
  | .location self name locationType group =>
      containerAbove text s.nodes (nodeOf s.groups ⟨self, name, locationType, group⟩)
  | _ => sZero

/-- **The state after all definitions**, and what they wrote. -/
structure Stream.Done (args : Arguments) (st₀ : State) (s : Stream) (types : List Str) (st : State)
    (rounds : List (Definition × List Paje)) : Prop where
  types : ∀ v, st.tree.typeTreeHash.read v =
    if threadAt types s.locations = some v then some sThread else types[v]?
  containers : ∀ v, st.tree.containerTreeHash.read v =
    s.nodes[v]?.map (Node.container st₀.names.text)
  placed : ∀ round ∈ rounds, ∀ time name type container label,
    .createContainer time name type container label ∈ round.2 →
      container = s.above st₀.names.text round.1
  created : args.dummy = false → ∀ node ∈ s.nodes, ∃ round ∈ rounds, ∃ type container,
    .createContainer 0 (node.container st₀.names.text) type container
      (node.container st₀.names.text) ∈ round.2

variable {args : Arguments} {st₀ st : State} {s : Stream} {types : List Str}

theorem NodesDone.readable {nodes : List Node} (h : NodesDone st₀ nodes types st) {i : UInt32}
    (hi : st₀.names.Readable i) : st.names.Readable i := by
  rw [Names.Readable, h.strings]
  split
  · rwa [Option.isSome_map]
  · exact hi

/-- The state that the locations find. -/
theorem NodesDone.ready (h : NodesDone st₀ s.nodes types st) (hfresh : Fresh st₀) :
    LocationsReady st₀ s.nodes s.groups
      { st with groups := st.groups ++ s.groups.map Group.systemTreeParent } where
  room := h.length_lt
  containers := h.holds.containerHash
  groups := by simp only [h.groups, hfresh.groups, List.nil_append]
  readable := fun _ => h.readable

theorem NodeRounds.above {rounds : List (Definition × List Paje)}
    (h : NodeRounds args st₀.names.text s.nodes rounds) :
    ∀ round ∈ rounds, ∀ time name type container label,
      .createContainer time name type container label ∈ round.2 →
        container = s.above st₀.names.text round.1 := by
  intro round hround
  obtain ⟨k, node, -, hdefine, hplaced⟩ := h.placed round hround
  rw [hdefine]
  exact hplaced

theorem LocationRounds.above {rounds : List (Definition × List Paje)}
    (h : LocationRounds st₀ s.nodes s.groups s.locations rounds) :
    ∀ round ∈ rounds, ∀ time name type container label,
      .createContainer time name type container label ∈ round.2 →
        container = s.above st₀.names.text round.1 := by
  intro round hround
  obtain ⟨l, -, hdefine, hplaced⟩ := h round hround
  rw [hdefine]
  exact hplaced

/-- **The definitions go through when they fit**, -/
theorem Stream.run_of_fit (args : Arguments) (hfresh : Fresh st₀) (ho : s.Ordered st₀.names.Readable)
    (hn : NodesFit st₀.names.text s.nodes types) (hl : LocationsFit types s.groups s.locations) :
    ∃ st rounds, run args .default st₀ s.definitions = some (st, rounds) ∧
      s.Done args st₀ types st rounds := by
  obtain ⟨st₁, rounds₁, hrun₁, hdone, hrounds₁⟩ := nodes_run args ho.nodes hfresh.holds hn
  have hgroups := groups_run args st₁ fun group hg => hdone.readable (ho.locations.groupNames group hg)
  obtain ⟨st₂, rounds₂, hrun₂, htree, hrounds₂⟩ :=
    (hdone.ready hfresh).run args .default hdone.holds ho.locations hl
  refine ⟨st₂, rounds₁ ++ ((defineGroups s.groups).map (fun d => (d, [])) ++ rounds₂), ?_,
    htree.types, fun v => ?_, ?_, fun hdummy node hnode => ?_⟩
  · rw [Stream.definitions, run_append, hrun₁, Option.bind_some, run_append, hgroups,
      Option.bind_some, hrun₂]
    rfl
  · rw [htree.containers, hdone.holds.containerHash, Cells.read_map_some, List.getElem?_map]
  · intro round hround
    rcases List.mem_append.mp hround with hround | hround
    · exact hrounds₁.above round hround
    · rcases List.mem_append.mp hround with hround | hround
      · obtain ⟨d, -, rfl⟩ := List.mem_map.mp hround
        exact fun _ _ _ _ _ hmem => absurd hmem List.not_mem_nil
      · exact hrounds₂.above round hround
  · obtain ⟨round, hround, hcreate⟩ := hrounds₁.created hdummy node hnode
    exact ⟨round, List.mem_append_left _ hround, hcreate⟩

/-- **and only then.** -/
theorem Stream.fit_of_run (hfresh : Fresh st₀) (ho : s.Ordered st₀.names.Readable)
    (hrun : (run args .default st₀ s.definitions).isSome = true) :
    ∃ types, NodesFit st₀.names.text s.nodes types ∧ LocationsFit types s.groups s.locations := by
  obtain ⟨result, hrun⟩ := Option.isSome_iff_exists.mp hrun
  rw [Stream.definitions, run_append] at hrun
  obtain ⟨⟨st₁, rounds₁⟩, hrun₁, hrun⟩ := Option.bind_eq_some_iff.mp hrun
  -- phase by phase: the state that each one finds is known from the one before
  obtain ⟨types, hn⟩ := nodes_fit ho.nodes hfresh.holds hrun₁
  obtain ⟨st₁', rounds₁', hrun₁', hdone, -⟩ := nodes_run args ho.nodes hfresh.holds hn
  cases hrun₁.symm.trans hrun₁'
  obtain ⟨rest, hrest, -⟩ := Option.map_eq_some_iff.mp hrun
  rw [run_append, groups_run args st₁ fun group hg =>
    hdone.readable (ho.locations.groupNames group hg), Option.bind_some] at hrest
  obtain ⟨last, hlast, -⟩ := Option.map_eq_some_iff.mp hrest
  exact ⟨types, hn,
    (hdone.ready hfresh).fit hdone.holds ho.locations (Option.isSome_of_mem hlast)⟩

end Otf2
end Akypuera

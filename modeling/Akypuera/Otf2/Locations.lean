import Akypuera.Otf2.Nodes

/-!
# Groups and locations

In the default mode a group is remembered with its node, and a location reads the entries of that
node in both tables. The first location also writes "thread" into the table of types, unless a class
is called so: **at the place that its own location type says**, which is a place among the classes,
the one behind them, or one outside the array (`threadAt`).
-/

set_option autoImplicit false

namespace Akypuera
namespace Otf2

open CText

/-- A location group, but for its reference. -/
structure Group where
  name : UInt32
  systemTreeParent : UInt32
  deriving DecidableEq

def Group.define (self : Nat) (group : Group) : Definition :=
  .locationGroup (UInt32.ofNat self) group.name group.systemTreeParent

structure Location where
  self : UInt64
  name : UInt32
  locationType : UInt8
  locationGroup : UInt32
  deriving DecidableEq

def Location.define (l : Location) : Definition :=
  .location l.self l.name l.locationType l.locationGroup

/-- The definitions of groups, numbered from 0. -/
def defineGroups (groups : List Group) : List Definition := groups.mapIdx Group.define

def defineLocations (locations : List Location) : List Definition := locations.map Location.define

/-- The node of a location's group. -/
def nodeOf (groups : List Group) (l : Location) : UInt32 :=
  (groups[l.locationGroup.toNat]?.map Group.systemTreeParent).getD undefinedNode

variable {args : Arguments} {st st' : State} {tree : Tree} {types containers : List Str}
  {groups : List Group} {l : Location} {locations : List Location}

/-! ## Groups -/

theorem groups_run (args : Arguments) (st : State)
    (h : ∀ group ∈ groups, st.names.Readable group.name) :
    run args .default st (defineGroups groups) =
      some ({ st with groups := st.groups ++ groups.map Group.systemTreeParent },
        (defineGroups groups).map fun d => (d, [])) := by
  induction groups using List.reverseRecOn with
  | nil => simp [defineGroups, run]
  | append_singleton groups group ih =>
    have hsnoc : defineGroups (groups ++ [group]) =
        defineGroups groups ++ [group.define groups.length] := List.mapIdx_concat
    obtain ⟨text, htext⟩ := Option.isSome_iff_exists.mp (h group (by simp))
    rw [hsnoc, run_append, ih fun g hg => h g (List.mem_append_left _ hg), Option.bind_some,
      run_singleton]
    simp [Group.define, Definition.call, Otf2.locationGroup, htext]

/-! ## The place of "thread" -/

/-- The search ends at the first entry that holds the name. -/
theorem findFrom_true {cells : Cells Str} {name : Str} {n i j : Nat} (hij : i ≤ j) (hj : j < i + n)
    (hread : cells.read j = some name)
    (hbefore : ∀ k, i ≤ k → k < j → (cells.read k).isSome = true) :
    findFrom cells name n i = some true := by
  induction n generalizing i with
  | zero => omega
  | succ n ih =>
    rw [findFrom]
    by_cases heq : i = j
    · rw [heq, hread, Option.bind_eq_bind, Option.bind_some, if_pos rfl]
      rfl
    · obtain ⟨type, htype⟩ := Option.isSome_iff_exists.mp (hbefore i le_rfl (by omega))
      rw [htype, Option.bind_eq_bind, Option.bind_some]
      split
      · rfl
      · exact ih (by omega) (by omega) fun k hk => hbefore k (by omega)

/-- **A type at any place up to the end**: it is found from then on. -/
theorem Tree.Holds.addType_at (h : tree.Holds types containers) {index : Nat}
    (hindex : index ≤ types.length) (hroom : types.length + 1 < 2 ^ 31) (type : Str) :
    ∃ tree', tree.addType index type = some tree' ∧ tree'.findTypeTreeName type = some true ∧
      (∀ v, tree'.typeTreeHash.read v = if v = index then some type else types[v]?) ∧
      tree'.containerTreeHash = tree.containerTreeHash := by
  have hlen : index < (types.map some ++ [none]).length := by
    rw [List.length_append, List.length_map]
    exact Nat.lt_succ_of_le hindex
  have hreads : ∀ v, Cells.read ((types.map some ++ [none]).set index (some type)) v =
      if v = index then some type else types[v]? := by
    intro v
    by_cases hv : v = index
    · rw [if_pos hv, hv, Cells.read_set_self type hlen]
    · rw [if_neg hv, Cells.read_set_ne type hv, Cells.read_append_none, Cells.read_map_some]
  have hsize := Cells.toInt_succ h.typeSize hroom
  refine ⟨{ tree with
    typeTreeHash := (types.map some ++ [none]).set index (some type),
    typeTreeCurrentSize := tree.typeTreeCurrentSize + 1 }, ?_, ?_, hreads, rfl⟩
  · simp only [Tree.addType, h.typeHash, Cells.resize_succ types h.typeSize, if_pos hroom,
      Cells.write_of_lt type hlen, Option.bind_eq_bind, Option.bind_some]
    rfl
  · rw [Tree.findTypeTreeName, ← Int32.toNat_toInt, hsize, Int.toNat_natCast]
    refine findFrom_true (Nat.zero_le _) (by omega) ((hreads index).trans (if_pos rfl)) ?_
    intro k _ hk
    rw [hreads, if_neg (by omega), List.getElem?_eq_getElem (by omega)]
    rfl

/-- Where the first location writes "thread". -/
def threadAt (types : List Str) (locations : List Location) : Option Nat :=
  if sThread ∈ types then none else locations.head?.map fun l => l.locationType.toNat

/-- **When all locations fit**: "thread" goes into the array, and what is read of the types of the
    nodes is there. -/
structure LocationsFit (types : List Str) (groups : List Group) (locations : List Location) :
    Prop where
  thread : ∀ index ∈ threadAt types locations,
    index ≤ types.length ∧ types.length + 1 < 2 ^ 31
  head : ∀ l ∈ locations.head?, (nodeOf groups l).toNat < types.length
  tail : ∀ l ∈ locations.tail, (nodeOf groups l).toNat < types.length ∨
    threadAt types locations = some (nodeOf groups l).toNat

/-! ## One location -/

/-- What is written for a location. -/
def locationOuts (args : Arguments) (new : Bool) (containerType container : Str) (self : UInt64) :
    List Paje :=
  if args.dummy then []
  else (if new then
      [.defineContainerType sThread containerType sThread, .defineStateType sState sThread sState,
        .defineLinkType sLink sZero sThread sThread sLink] else []) ++
    [.createContainer 0 (threadStr self) sThread container (threadStr self)]

theorem container_of_mem_locationOuts {new : Bool} {containerType above : Str} {self : UInt64}
    {time : ℚ} {n t container label : Str}
    (h : .createContainer time n t container label ∈
      locationOuts args new containerType above self) : container = above := by
  unfold locationOuts at h
  split at h
  · exact absurd h List.not_mem_nil
  · rcases List.mem_append.mp h with h | h
    · split at h
      · simp at h
      · exact absurd h List.not_mem_nil
    · cases List.mem_singleton.mp h
      rfl

/-- **Definitions in order**: groups are on nodes, and locations in groups. -/
structure LocationsOrdered (defined : UInt32 → Prop) (nodes : List Node) (groups : List Group)
    (locations : List Location) : Prop where
  groupNames : ∀ group ∈ groups, defined group.name
  onNodes : ∀ group ∈ groups, group.systemTreeParent.toNat < nodes.length
  names : ∀ l ∈ locations, defined l.name
  inGroups : ∀ l ∈ locations, l.locationGroup.toNat < groups.length

/-- What the callback of a location finds, the types aside. -/
structure LocationsReady (st₀ : State) (nodes : List Node) (groups : List Group) (st : State) :
    Prop where
  room : nodes.length < 2 ^ 31
  containers : st.tree.containerTreeHash = (nodes.map (Node.container st₀.names.text)).map some
  groups : st.groups = groups.map Group.systemTreeParent
  readable : ∀ i, st₀.names.Readable i → st.names.Readable i

variable {st₀ : State} {nodes : List Node} {mode : Mode}

theorem LocationsOrdered.group {defined : UInt32 → Prop}
    (h : LocationsOrdered defined nodes groups locations) (hl : l ∈ locations) :
    (groups.map Group.systemTreeParent)[l.locationGroup.toNat]? = some (nodeOf groups l) ∧
      (nodeOf groups l).toNat < nodes.length := by
  have hlt := h.inGroups l hl
  rw [List.getElem?_map, nodeOf, List.getElem?_eq_getElem hlt]
  exact ⟨rfl, h.onNodes _ (List.getElem_mem hlt)⟩

/-- The callback, with what it reads. -/
theorem LocationsReady.call_eq (args : Arguments) (mode : Mode)
    (h : LocationsReady st₀ nodes groups st)
    (ho : LocationsOrdered st₀.names.Readable nodes groups locations)
    (hl : l ∈ locations) :
    l.define.call args mode st =
      (st.tree.typeTreeHash.read (nodeOf groups l).toNat).bind fun containerType =>
        (st.tree.declareType l.locationType.toNat sThread).map fun p =>
          ({ st with tree := p.1, locations := st.locations ++ [l.self] },
            locationOuts args p.2 containerType
              (containerAbove st₀.names.text nodes (nodeOf groups l)) l.self) := by
  obtain ⟨hgroup, hnode⟩ := ho.group hl
  obtain ⟨text, htext⟩ := Option.isSome_iff_exists.mp (h.readable l.name (ho.names l hl))
  have hint := Cells.toInt_toInt32 (hnode.trans h.room)
  have hcontainer : st.tree.containerTreeHash.readAt (nodeOf groups l).toInt32 =
      some (containerAbove st₀.names.text nodes (nodeOf groups l)) := by
    rw [Cells.readAt_of_toInt hint, h.containers, Cells.read_map_some, List.getElem?_map,
      containerAbove, List.getElem?_eq_getElem hnode]
    rfl
  simp only [Location.define, Definition.call, Otf2.location, htext, h.groups, hgroup, hcontainer,
    Cells.readAt_of_toInt hint, Option.bind_eq_bind, Option.bind_some]
  cases st.tree.typeTreeHash.read (nodeOf groups l).toNat with
  | none => rfl
  | some containerType =>
    cases st.tree.declareType l.locationType.toNat sThread <;> rfl

/-- Once "thread" is found, nothing changes. -/
theorem LocationsReady.call_found (args : Arguments) (mode : Mode)
    (h : LocationsReady st₀ nodes groups st)
    (ho : LocationsOrdered st₀.names.Readable nodes groups locations)
    (hl : l ∈ locations) (hfound : st.tree.findTypeTreeName sThread = some true) {type : Str}
    (htype : st.tree.typeTreeHash.read (nodeOf groups l).toNat = some type) :
    l.define.call args mode st =
      some ({ st with locations := st.locations ++ [l.self] },
        locationOuts args false type
          (containerAbove st₀.names.text nodes (nodeOf groups l)) l.self) := by
  rw [h.call_eq args mode ho hl, htype, Tree.declareType, hfound]
  rfl

theorem LocationsReady.next (h : LocationsReady st₀ nodes groups st) {tree : Tree}
    (htree : tree.containerTreeHash = st.tree.containerTreeHash) (locations : List UInt64) :
    LocationsReady st₀ nodes groups { st with tree := tree, locations := locations } :=
  ⟨h.room, htree.trans h.containers, h.groups, h.readable⟩

theorem LocationsOrdered.sublist {defined : UInt32 → Prop} {before : List Location}
    (h : LocationsOrdered defined nodes groups locations) (hsub : before ⊆ locations) :
    LocationsOrdered defined nodes groups before :=
  ⟨h.groupNames, h.onNodes, fun l hl => h.names l (hsub hl), fun l hl => h.inGroups l (hsub hl)⟩

/-! ## All locations -/

/-- What is written for locations: each container under the one of its node. -/
def LocationRounds (st₀ : State) (nodes : List Node) (groups : List Group)
    (locations : List Location) (rounds : List (Definition × List Paje)) : Prop :=
  ∀ round ∈ rounds, ∃ l ∈ locations, round.1 = l.define ∧
    ∀ time name type container label, .createContainer time name type container label ∈ round.2 →
      container = containerAbove st₀.names.text nodes (nodeOf groups l)

theorem LocationRounds.cons (args : Arguments) {rounds : List (Definition × List Paje)}
    (h : LocationRounds st₀ nodes groups locations rounds) (new : Bool) (type : Str) :
    LocationRounds st₀ nodes groups (l :: locations) ((l.define, locationOuts args new type
      (containerAbove st₀.names.text nodes (nodeOf groups l)) l.self) :: rounds) := by
  intro round hround
  rcases List.mem_cons.mp hround with rfl | hround
  · exact ⟨l, List.mem_cons_self, rfl, fun _ _ _ _ _ hmem => container_of_mem_locationOuts hmem⟩
  · obtain ⟨l', hl', hround⟩ := h round hround
    exact ⟨l', List.mem_cons_of_mem _ hl', hround⟩

/-- With "thread" in the table, locations go through when there are types at their nodes, -/
theorem LocationsReady.run_found (args : Arguments) (mode : Mode)
    (h : LocationsReady st₀ nodes groups st)
    (ho : LocationsOrdered st₀.names.Readable nodes groups locations)
    (hfound : st.tree.findTypeTreeName sThread = some true)
    (hreads : ∀ l ∈ locations, (st.tree.typeTreeHash.read (nodeOf groups l).toNat).isSome = true) :
    ∃ st' rounds, run args mode st (defineLocations locations) = some (st', rounds) ∧
      st'.tree = st.tree ∧ LocationRounds st₀ nodes groups locations rounds := by
  induction locations generalizing st with
  | nil => exact ⟨st, [], rfl, rfl, nofun⟩
  | cons l locations ih =>
    obtain ⟨type, htype⟩ := Option.isSome_iff_exists.mp (hreads l List.mem_cons_self)
    have hcall := h.call_found args mode ho List.mem_cons_self hfound htype
    obtain ⟨st', rounds, hrun, htree, hrounds⟩ :=
      ih (h.next rfl (st.locations ++ [l.self])) (ho.sublist (List.subset_cons_self l locations))
        hfound fun l' hl' => hreads l' (List.mem_cons_of_mem _ hl')
    refine ⟨st', _, ?_, htree, hrounds.cons args false type⟩
    rw [defineLocations, List.map_cons, run_cons hcall]
    exact congrArg (Option.map _) hrun

/-- and only then. -/
theorem LocationsReady.reads_of_run (h : LocationsReady st₀ nodes groups st)
    (ho : LocationsOrdered st₀.names.Readable nodes groups locations)
    (hfound : st.tree.findTypeTreeName sThread = some true)
    (hrun : (run args mode st (defineLocations locations)).isSome = true) :
    ∀ l ∈ locations, (st.tree.typeTreeHash.read (nodeOf groups l).toNat).isSome = true := by
  induction locations generalizing st with
  | nil => exact nofun
  | cons l locations ih =>
    obtain ⟨st₁, outs, hcall, hrest⟩ := call_of_run hrun
    have hread := hcall
    rw [h.call_eq args mode ho List.mem_cons_self] at hread
    obtain ⟨type, htype, -⟩ := Option.bind_eq_some_iff.mp hread
    rw [h.call_found args mode ho List.mem_cons_self hfound htype] at hcall
    cases hcall
    intro l' hl'
    rcases List.mem_cons.mp hl' with rfl | hl'
    · exact Option.isSome_of_mem htype
    · exact ih (h.next rfl (st.locations ++ [l.self]))
        (ho.sublist (List.subset_cons_self l locations)) hfound hrest l' hl'

/-- The tables after the locations. -/
structure LocationsDone (types : List Str) (locations : List Location) (before tree : Tree) :
    Prop where
  types : ∀ v, tree.typeTreeHash.read v =
    if threadAt types locations = some v then some sThread else types[v]?
  containers : tree.containerTreeHash = before.containerTreeHash

theorem threadAt_of_mem (h : sThread ∈ types) (locations : List Location) :
    threadAt types locations = none := if_pos h

theorem threadAt_cons (h : sThread ∉ types) (l : Location) (locations : List Location) :
    threadAt types (l :: locations) = some l.locationType.toNat := if_neg h

/-- The first location, when no class is called "thread". -/
theorem LocationsReady.first (args : Arguments) (mode : Mode)
    (h : LocationsReady st₀ nodes groups st) (hholds : st.tree.Holds types containers)
    (ho : LocationsOrdered st₀.names.Readable nodes groups locations) (hl : l ∈ locations)
    (hnew : sThread ∉ types) (hnode : (nodeOf groups l).toNat < types.length)
    (hindex : l.locationType.toNat ≤ types.length) (hroom : types.length + 1 < 2 ^ 31) :
    ∃ tree', l.define.call args mode st =
        some ({ st with tree := tree', locations := st.locations ++ [l.self] },
          locationOuts args true types[(nodeOf groups l).toNat]
            (containerAbove st₀.names.text nodes (nodeOf groups l)) l.self) ∧
      tree'.findTypeTreeName sThread = some true ∧
      (∀ v, tree'.typeTreeHash.read v =
        if v = l.locationType.toNat then some sThread else types[v]?) ∧
      tree'.containerTreeHash = st.tree.containerTreeHash := by
  obtain ⟨tree', hadd, hfound, hreads, hcontainers⟩ := hholds.addType_at hindex hroom sThread
  refine ⟨tree', ?_, hfound, hreads, hcontainers⟩
  rw [h.call_eq args mode ho hl, hholds.typeHash, Cells.read_map_some,
    List.getElem?_eq_getElem hnode, Option.bind_some, Tree.declareType, hholds.findTypeTreeName]
  simp [hnew, hadd]

/-- **The locations go through when they all fit**, -/
theorem LocationsReady.run (args : Arguments) (mode : Mode)
    (h : LocationsReady st₀ nodes groups st) (hholds : st.tree.Holds types containers)
    (ho : LocationsOrdered st₀.names.Readable nodes groups locations)
    (hf : LocationsFit types groups locations) :
    ∃ st' rounds, run args mode st (defineLocations locations) = some (st', rounds) ∧
      LocationsDone types locations st.tree st'.tree ∧
      LocationRounds st₀ nodes groups locations rounds := by
  have hread : ∀ v, st.tree.typeTreeHash.read v = types[v]? := fun v => by
    rw [hholds.typeHash, Cells.read_map_some]
  cases locations with
  | nil =>
    exact ⟨st, [], rfl, ⟨fun v => by rw [hread]; simp [threadAt], rfl⟩, nofun⟩
  | cons l locations =>
    have hhead := hf.head l rfl
    by_cases hmem : sThread ∈ types
    · -- it is the name of a class
      have hfound : st.tree.findTypeTreeName sThread = some true := by
        rw [hholds.findTypeTreeName, decide_eq_true hmem]
      have hnone := threadAt_of_mem hmem (l :: locations)
      obtain ⟨st', rounds, hrun, htree, hrounds⟩ := h.run_found args mode ho hfound fun l' hl' => by
        rw [hread, List.getElem?_eq_getElem]
        · rfl
        · rcases List.mem_cons.mp hl' with rfl | hl'
          · exact hhead
          · exact (hf.tail l' hl').resolve_right (by rw [hnone]; exact nofun)
      refine ⟨st', rounds, hrun, ⟨fun v => ?_, by rw [htree]⟩, hrounds⟩
      rw [htree, hread, hnone, if_neg nofun]
    · -- the first location writes it, and the others find it
      have hat := threadAt_cons hmem l locations
      obtain ⟨hindex, hroom⟩ := hf.thread _ hat
      obtain ⟨tree', hcall, hfound, hreads, hcontainers⟩ :=
        h.first args mode hholds ho List.mem_cons_self hmem hhead hindex hroom
      obtain ⟨st', rounds, hrun, htree, hrounds⟩ :=
        (h.next hcontainers (st.locations ++ [l.self])).run_found args mode
          (ho.sublist (List.subset_cons_self l locations)) hfound fun l' hl' => by
            rw [hreads]
            split
            · rfl
            · next hne =>
              rcases hf.tail l' hl' with hlt | heq
              · rw [List.getElem?_eq_getElem hlt]
                rfl
              · rw [hat] at heq
                exact absurd (Option.some.inj heq).symm hne
      refine ⟨st', _, ?_, ⟨fun v => ?_, ?_⟩, hrounds.cons args true types[(nodeOf groups l).toNat]⟩
      · rw [defineLocations, List.map_cons, run_cons hcall]
        exact congrArg (Option.map _) hrun
      · rw [htree, hreads, hat]
        simp only [Option.some.injEq, eq_comm]
      · rw [htree]
        exact hcontainers

/-- **and only then.** -/
theorem LocationsReady.fit (h : LocationsReady st₀ nodes groups st)
    (hholds : st.tree.Holds types containers)
    (ho : LocationsOrdered st₀.names.Readable nodes groups locations)
    (hrun : (Otf2.run args mode st (defineLocations locations)).isSome = true) :
    LocationsFit types groups locations := by
  have hread : ∀ v, st.tree.typeTreeHash.read v = types[v]? := fun v => by
    rw [hholds.typeHash, Cells.read_map_some]
  cases locations with
  | nil => exact ⟨fun index hindex => by simp [threadAt] at hindex, nofun, nofun⟩
  | cons l locations =>
    obtain ⟨st₁, outs, hcall, hrest⟩ := call_of_run hrun
    have hparts := hcall
    rw [h.call_eq args mode ho List.mem_cons_self] at hparts
    obtain ⟨type, htype, hparts⟩ := Option.bind_eq_some_iff.mp hparts
    obtain ⟨declared, hdeclare, -⟩ := Option.map_eq_some_iff.mp hparts
    have hhead : (nodeOf groups l).toNat < types.length := by
      rw [hread] at htype
      exact (List.getElem?_eq_some_iff.mp htype).1
    have hhead' : ∀ l' ∈ (l :: locations).head?, (nodeOf groups l').toNat < types.length := by
      intro l' hl'
      cases hl'
      exact hhead
    by_cases hmem : sThread ∈ types
    · have hfound : st.tree.findTypeTreeName sThread = some true := by
        rw [hholds.findTypeTreeName, decide_eq_true hmem]
      refine ⟨by rw [threadAt_of_mem hmem]; exact nofun, hhead', fun l' hl' => Or.inl ?_⟩
      have hsome := h.reads_of_run ho hfound hrun l' (List.mem_of_mem_tail hl')
      rw [hread] at hsome
      simpa using hsome
    · -- it was written somewhere, and what the others read may be that very entry
      obtain ⟨hindex, hroom⟩ := (hholds.le_of_declareType hdeclare).resolve_left hmem
      obtain ⟨tree', hcall', hfound, hreads, hcontainers⟩ :=
        h.first args mode hholds ho List.mem_cons_self hmem hhead hindex hroom
      cases hcall.symm.trans hcall'
      have hat := threadAt_cons hmem l locations
      refine ⟨?_, hhead', ?_⟩
      · intro index hi
        rw [hat] at hi
        cases hi
        exact ⟨hindex, hroom⟩
      · intro l' hl'
        have hsome := (h.next hcontainers (st.locations ++ [l.self])).reads_of_run
          (ho.sublist (List.subset_cons_self l locations)) hfound hrest l' hl'
        rw [hreads] at hsome
        split at hsome
        · next heq => exact Or.inr (hat.trans (congrArg some heq.symm))
        · exact Or.inl (by simpa using hsome)

end Otf2
end Akypuera

import Akypuera.Otf2.Stream

/-!
# The tables of the tree in step

After each callback the entries of a node should be its class and its name. They are when **each
node has a class of its own**, no class loses its blanks to a node's name, and "thread" does not
take the place of a class (`Stream.Distinct`); and not otherwise.
-/

set_option autoImplicit false

namespace Akypuera
namespace Otf2

open CText

/-- Both tables hold what the nodes defined so far are. -/
structure HoldsNodes (text : UInt32 → Str) (done : List Definition) (tree : Tree) : Prop where
  types : ∀ self name className parent, .systemTreeNode self name className parent ∈ done →
    tree.typeTreeHash.read self.toNat = some (text className)
  containers : ∀ self name className parent, .systemTreeNode self name className parent ∈ done →
    tree.containerTreeHash.read self.toNat = some (deblank (text name))

/-- **The tables are in step**: every callback goes through, the tables hold the nodes after each,
    and each container is created under the one of its parent. -/
structure TreeInStep (args : Arguments) (st₀ : State) (s : Stream) : Prop where
  tables : ∀ n, ∃ st rounds, run args .default st₀ (s.definitions.take n) = some (st, rounds) ∧
    HoldsNodes st₀.names.text (s.definitions.take n) st.tree
  placed : ∀ st rounds, run args .default st₀ s.definitions = some (st, rounds) →
    ∀ round ∈ rounds, ∀ time name type container label,
      .createContainer time name type container label ∈ round.2 →
        container = s.above st₀.names.text round.1

/-- The classes as they are defined. -/
def Stream.classes (text : UInt32 → Str) (s : Stream) : List Str :=
  s.nodes.map fun node => text node.className

/-- **The condition**: classes are distinct, those that are also the name of the node or of a node
    before it have no blanks, and "thread" is one of them, or comes right behind them. -/
structure Stream.Distinct (text : UInt32 → Str) (s : Stream) : Prop where
  room : s.nodes.length < 2 ^ 31
  blanks : ∀ k (hk : k < s.nodes.length),
    s.nodes[k].className ∈ (s.nodes.take (k + 1)).map Node.name → ' ' ∉ text s.nodes[k].className
  distinct : (s.classes text).Nodup
  thread : ∀ index ∈ threadAt (s.classes text) s.locations, index = s.nodes.length

variable {args : Arguments} {st₀ : State} {s : Stream} {text : UInt32 → Str} {types : List Str}

/-! ## Classes -/

theorem getElem?_classesFrom (before nodes : List Node) (k : Nat) :
    (classesFrom text before nodes)[k]? =
      nodes[k]?.map fun node => node.classRead text (before ++ nodes.take k) := by
  induction nodes generalizing before k with
  | nil => rfl
  | cons node nodes ih =>
    cases k with
    | zero => simp [classesFrom]
    | succ k => simp [classesFrom, ih]

theorem classRead_eq_iff (before : List Node) (node : Node) :
    node.classRead text before = text node.className ↔
      (node.className ∈ (before ++ [node]).map Node.name → ' ' ∉ text node.className) := by
  unfold Node.classRead
  split
  · next hmem => rw [deblank_eq_self]; exact ⟨fun h _ => h, fun h => h hmem⟩
  · next hmem => exact ⟨fun _ h => absurd h hmem, fun _ => rfl⟩

/-- The classes are read as they are defined when none loses blanks. -/
theorem classesRead_eq_iff : classesRead text s.nodes = s.classes text ↔
    ∀ k (hk : k < s.nodes.length), s.nodes[k].className ∈ (s.nodes.take (k + 1)).map Node.name →
      ' ' ∉ text s.nodes[k].className := by
  have hiff : ∀ k (hk : k < s.nodes.length),
      ((classesRead text s.nodes)[k]? = (s.classes text)[k]? ↔
        (s.nodes[k].className ∈ (s.nodes.take (k + 1)).map Node.name →
          ' ' ∉ text s.nodes[k].className)) := by
    intro k hk
    rw [classesRead, getElem?_classesFrom, Stream.classes, List.getElem?_map,
      List.getElem?_eq_getElem hk, Option.map_some, Option.map_some, Option.some.injEq,
      classRead_eq_iff, List.nil_append, List.take_succ_eq_append_getElem hk]
  constructor
  · intro h k hk
    exact (hiff k hk).mp (by rw [h])
  · intro h
    apply List.ext_getElem?
    intro k
    by_cases hk : k < s.nodes.length
    · exact (hiff k hk).mpr (h k hk)
    · rw [List.getElem?_eq_none (by rw [length_classesRead]; omega),
        List.getElem?_eq_none (by rw [Stream.classes, List.length_map]; omega)]

/-- Distinct classes fit. -/
theorem Stream.Distinct.nodesFit (h : s.Distinct text) {defined : UInt32 → Prop}
    (ho : NodesOrdered defined s.nodes) : NodesFit text s.nodes (s.classes text) := by
  have hread := classesRead_eq_iff.mpr h.blanks
  refine ⟨h.room, by rw [hread], h.distinct, by rw [hread]; exact List.Subset.refl _, ?_⟩
  intro node hnode
  obtain ⟨k, hk, rfl⟩ := List.getElem_of_mem hnode
  apply (ho.ordered k hk).imp_right
  intro hlt
  rw [List.length_take] at hlt
  rw [Stream.classes, List.length_map]
  omega

theorem Stream.Distinct.locationsFit (h : s.Distinct text) {defined : UInt32 → Prop}
    (ho : LocationsOrdered defined s.nodes s.groups s.locations) :
    LocationsFit (s.classes text) s.groups s.locations := by
  have hlen : (s.classes text).length = s.nodes.length := List.length_map _
  refine ⟨fun index hindex => ?_, fun l hl => ?_, fun l hl => Or.inl ?_⟩
  · -- the number of nodes is a location type, and so it is small
    have heq := h.thread index hindex
    rw [threadAt] at hindex
    split at hindex
    · cases hindex
    · obtain ⟨l, -, hl⟩ := Option.map_eq_some_iff.mp hindex
      have hlt := l.locationType.toNat_lt
      omega
  · rw [hlen]
    exact (ho.group (List.mem_of_mem_head? hl)).2
  · rw [hlen]
    exact (ho.group (List.mem_of_mem_tail hl)).2

/-! ## The first definitions of a sequence -/

theorem take_mapIdx {α β : Type} (f : Nat → α → β) (as : List α) (n : Nat) :
    (as.mapIdx f).take n = (as.take n).mapIdx f := by
  apply List.ext_getElem?
  intro i
  rw [List.getElem?_take, List.getElem?_mapIdx, List.getElem?_mapIdx, List.getElem?_take]
  split <;> rfl

/-- The first definitions are a sequence as well. -/
def Stream.take (s : Stream) (n : Nat) : Stream where
  nodes := s.nodes.take n
  groups := s.groups.take (n - s.nodes.length)
  locations := s.locations.take (n - s.nodes.length - s.groups.length)

theorem Stream.take_definitions (s : Stream) (n : Nat) :
    s.definitions.take n = (s.take n).definitions := by
  have hnodes : (defineNodes s.nodes).length = s.nodes.length := List.length_mapIdx
  have hgroups : (defineGroups s.groups).length = s.groups.length := List.length_mapIdx
  rw [Stream.definitions, List.take_append, List.take_append, hnodes, hgroups, defineNodes,
    defineGroups, defineLocations, take_mapIdx, take_mapIdx, ← List.map_take]
  rfl

theorem Stream.Ordered.take {defined : UInt32 → Prop} (h : s.Ordered defined) (n : Nat) :
    (s.take n).Ordered defined := by
  have hl := h.locations
  refine ⟨⟨fun node hn => h.nodes.readable node (List.mem_of_mem_take hn), fun k hk => ?_⟩,
    ⟨fun g hg => hl.groupNames g (List.mem_of_mem_take hg), fun g hg => ?_,
      fun l hm => hl.names l (List.mem_of_mem_take hm), fun l hm => ?_⟩⟩
  · have hlt : k < n ∧ k < s.nodes.length := by
      rw [Stream.take, List.length_take] at hk
      omega
    have hbefore := h.nodes.ordered k hlt.2
    rw [Node.Ordered, List.length_take] at hbefore ⊢
    simp only [Stream.take, List.getElem_take, List.length_take]
    exact hbefore.imp_right fun hp => by omega
  · -- with a group, all nodes are among the first definitions
    have hpos : n - s.nodes.length ≠ 0 := fun hzero => by simp [Stream.take, hzero] at hg
    have hall : (s.take n).nodes = s.nodes := List.take_of_length_le (by omega)
    rw [hall]
    exact hl.onNodes g (List.mem_of_mem_take hg)
  · have hpos : n - s.nodes.length - s.groups.length ≠ 0 := fun hzero => by
      simp [Stream.take, hzero] at hm
    have hall : (s.take n).groups = s.groups := List.take_of_length_le (by omega)
    rw [hall]
    exact hl.inGroups l (List.mem_of_mem_take hm)

theorem Stream.Distinct.take (h : s.Distinct text) (n : Nat) : (s.take n).Distinct text := by
  have hclasses : (s.take n).classes text = (s.classes text).take n := List.map_take
  refine ⟨(List.length_take_le' n s.nodes).trans_lt h.room, ?_, ?_, ?_⟩
  · intro k hk
    have hlt : k < n ∧ k < s.nodes.length := by
      rw [Stream.take, List.length_take] at hk
      omega
    simp only [Stream.take, List.getElem_take, List.take_take]
    rw [Nat.min_eq_left (by omega)]
    exact h.blanks k hlt.2
  · rw [hclasses]
    exact h.distinct.sublist (List.take_sublist _ _)
  · intro index hindex
    by_cases hzero : n - s.nodes.length - s.groups.length = 0
    · simp [threadAt, Stream.take, hzero] at hindex
    · have hall : (s.take n).nodes = s.nodes := List.take_of_length_le (by omega)
      have hhead : (s.take n).locations.head? = s.locations.head? := by
        rw [Stream.take, List.head?_take, if_neg hzero]
      rw [threadAt, Stream.classes, hall, hhead] at hindex
      rw [hall]
      exact h.thread index hindex

/-! ## In step, or not -/

/-- The definitions of nodes are the nodes, at their places. -/
theorem Stream.mem_definitions_node {self name className parent : UInt32} :
    .systemTreeNode self name className parent ∈ s.definitions ↔
      ∃ k, self = UInt32.ofNat k ∧ s.nodes[k]? = some ⟨name, className, parent⟩ := by
  rw [Stream.mem_definitions]
  constructor
  · rintro (⟨k, hk, heq⟩ | ⟨k, hk, heq⟩ | ⟨l, hl, heq⟩)
    · cases heq
      exact ⟨k, rfl, List.getElem?_eq_getElem hk⟩
    · cases heq
    · cases heq
  · rintro ⟨k, rfl, hget⟩
    obtain ⟨hk, heq⟩ := List.getElem?_eq_some_iff.mp hget
    exact Or.inl ⟨k, hk, by rw [heq]; rfl⟩

/-- With distinct classes the tables hold the nodes. -/
theorem Stream.Done.holdsNodes {st : State} {rounds : List (Definition × List Paje)}
    (h : s.Done args st₀ (s.classes st₀.names.text) st rounds) (hd : s.Distinct st₀.names.text) :
    HoldsNodes st₀.names.text s.definitions st.tree := by
  constructor <;> intro self name className parent hmem <;>
    obtain ⟨k, rfl, hget⟩ := Stream.mem_definitions_node.mp hmem <;>
    have hk := (List.getElem?_eq_some_iff.mp hget).1 <;>
    rw [toNat_ofNat (hk.trans hd.room)]
  · have hne : threadAt (s.classes st₀.names.text) s.locations ≠ some k := fun hat =>
      absurd (hd.thread k hat) (by omega)
    rw [h.types, if_neg hne, Stream.classes, List.getElem?_map, hget]
    rfl
  · rw [h.containers, hget]
    rfl

theorem Stream.Distinct.treeInStep (h : s.Distinct st₀.names.text) (args : Arguments)
    (hfresh : Fresh st₀) (ho : s.Ordered st₀.names.Readable) : TreeInStep args st₀ s := by
  constructor
  · intro n
    have hd := h.take n
    have hot := ho.take n
    obtain ⟨st, rounds, hrun, hdone⟩ := Stream.run_of_fit args hfresh hot (hd.nodesFit hot.nodes)
      (hd.locationsFit hot.locations)
    rw [Stream.take_definitions]
    exact ⟨st, rounds, hrun, hdone.holdsNodes hd⟩
  · intro st rounds hrun
    obtain ⟨st', rounds', hrun', hdone⟩ := Stream.run_of_fit args hfresh ho (h.nodesFit ho.nodes)
      (h.locationsFit ho.locations)
    cases hrun.symm.trans hrun'
    exact hdone.placed

theorem TreeInStep.distinct (h : TreeInStep args st₀ s) (hfresh : Fresh st₀)
    (ho : s.Ordered st₀.names.Readable) : s.Distinct st₀.names.text := by
  obtain ⟨st, rounds, hrun, hholds⟩ := h.tables s.definitions.length
  rw [List.take_length] at hrun hholds
  obtain ⟨types, hn, hl⟩ := Stream.fit_of_run hfresh ho (Option.isSome_of_mem hrun)
  obtain ⟨st', rounds', hrun', hdone⟩ := Stream.run_of_fit args hfresh ho hn hl
  cases hrun.symm.trans hrun'
  have hread : ∀ k (hk : k < s.nodes.length), (if threadAt types s.locations = some k
      then some sThread else types[k]?) = some (st₀.names.text s.nodes[k].className) := by
    intro k hk
    have hself := hholds.types (UInt32.ofNat k) s.nodes[k].name s.nodes[k].className
      s.nodes[k].parent (Stream.mem_definitions_node.mpr ⟨k, rfl, List.getElem?_eq_getElem hk⟩)
    rwa [toNat_ofNat (hk.trans hn.room), hdone.types] at hself
  -- "thread" took the place of no class
  have hthread : ∀ k (hk : k < s.nodes.length), threadAt types s.locations ≠ some k := by
    intro k hk hat
    have hself := hread k hk
    rw [if_pos hat] at hself
    have htext : sThread = st₀.names.text s.nodes[k].className := Option.some.inj hself
    have hclass : s.nodes[k].classRead st₀.names.text (s.nodes.take k) = sThread := by
      rw [htext, classRead_eq_iff, ← htext]
      exact fun _ => by decide
    have hmem : sThread ∈ types := by
      refine hn.all (List.mem_of_getElem? (i := k) ?_)
      rw [classesRead, getElem?_classesFrom, List.getElem?_eq_getElem hk, Option.map_some,
        List.nil_append, hclass]
    rw [threadAt_of_mem hmem] at hat
    cases hat
  have htypes : types = s.classes st₀.names.text := by
    apply List.ext_getElem?
    intro k
    have hle := hn.length_le
    by_cases hk : k < s.nodes.length
    · have hself := hread k hk
      rw [if_neg (hthread k hk)] at hself
      rw [hself, Stream.classes, List.getElem?_map, List.getElem?_eq_getElem hk]
      rfl
    · rw [List.getElem?_eq_none (by omega),
        List.getElem?_eq_none (by rw [Stream.classes, List.length_map]; omega)]
  subst htypes
  -- as many types as nodes, so the types are the classes that were read
  have hlen : (s.classes st₀.names.text).length = s.nodes.length := List.length_map _
  have hclasses := hn.first.eq_of_length (by rw [hlen, length_classesRead])
  refine ⟨hn.room, classesRead_eq_iff.mp hclasses.symm, hn.nodup, ?_⟩
  intro index hat
  have hle := (hl.thread index hat).1
  by_contra hne
  exact hthread index (by omega) hat

/-- **The tables are in step exactly when each node has a class of its own.** -/
theorem treeInStep_iff (args : Arguments) (hfresh : Fresh st₀) (ho : s.Ordered st₀.names.Readable) :
    TreeInStep args st₀ s ↔ s.Distinct st₀.names.text :=
  ⟨fun h => h.distinct hfresh ho, fun h => h.treeInStep args hfresh ho⟩

/-- The strings 0 to 3 are read. -/
def fourStrings : State :=
  { State.init with
    names := { stringHash := [some "a b".toList, some "node".toList, some "machine".toList,
      some "t".toList], regionNameMap := [] } }

/-- A machine, a node on it, and two locations on the node. -/
def oneMachine : Stream where
  nodes := [⟨0, 2, undefinedNode⟩, ⟨3, 1, 0⟩]
  groups := [⟨3, 1⟩]
  locations := [⟨0, 3, 2, 0⟩, ⟨1, 3, 1, 0⟩]

/-- A machine with two nodes, of the same class. -/
def twoNodes : Stream where
  nodes := [⟨0, 2, undefinedNode⟩, ⟨3, 1, 0⟩, ⟨3, 1, 0⟩]
  groups := []
  locations := []

theorem fourStrings_fresh : Fresh fourStrings := ⟨Tree.Holds.init, rfl⟩

theorem oneMachine_ordered : oneMachine.Ordered fourStrings.names.Readable :=
  ⟨⟨by decide, by decide⟩, by decide, by decide, by decide, by decide⟩

theorem oneMachine_distinct : oneMachine.Distinct fourStrings.names.text where
  room := by decide
  blanks := by decide
  distinct := by decide
  thread index hindex := by cases hindex; rfl

theorem treeInStep_iff_oneMachine : TreeInStep ⟨false, false, false⟩ fourStrings oneMachine :=
  (treeInStep_iff ⟨false, false, false⟩ fourStrings_fresh oneMachine_ordered).mpr
    oneMachine_distinct

/-- **The type of the second node is not there.** -/
theorem not_treeInStep : Fresh fourStrings ∧ twoNodes.Ordered fourStrings.names.Readable ∧
    ¬ TreeInStep ⟨false, false, false⟩ fourStrings twoNodes := by
  have ho : twoNodes.Ordered fourStrings.names.Readable :=
    ⟨⟨by decide, by decide⟩, by decide, by decide, by decide, by decide⟩
  refine ⟨fourStrings_fresh, ho, ?_⟩
  intro h
  have hnodup := (h.distinct fourStrings_fresh ho).distinct
  exact absurd hnodup (by decide)

end Otf2
end Akypuera

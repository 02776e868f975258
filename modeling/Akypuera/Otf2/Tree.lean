import Akypuera.Otf2.Names

/-!
# The tables of the system tree

`container_tree_hash` gets an entry for each node, but `type_tree_hash` only for each new class, and
both are read at the references of nodes. So the tables are in step only as long as each node has a
class of its own. When a class comes again, the types stay behind: a new class is then written
behind the end of the array, and what is above a later node is read behind it
(`Tree.Holds.of_node`).
-/

set_option autoImplicit false

namespace Akypuera
namespace Otf2

open CText

/-- The tables of the tree hold these types and these containers, from 0 on. -/
structure Tree.Holds (tree : Tree) (types containers : List Str) : Prop where
  typeHash : tree.typeTreeHash = types.map some
  typeSize : tree.typeTreeCurrentSize.toInt = types.length
  containerHash : tree.containerTreeHash = containers.map some
  containerSize : tree.containerTreeCurrentSize.toInt = containers.length

variable {tree tree' : Tree} {types containers : List Str}

theorem Tree.Holds.init : State.init.tree.Holds [] [] := ⟨rfl, rfl, rfl, rfl⟩

/-- The entries from `i` on are looked at until the name is found. -/
theorem findFrom_eq (cells : Cells Str) (name : Str) (front back : List Str) :
    cells = (front ++ back).map some →
      findFrom cells name back.length front.length = some (decide (name ∈ back)) := by
  induction back generalizing front with
  | nil => intro _; rfl
  | cons type back ih =>
    intro hcells
    have hread : cells.read front.length = some type := by
      rw [hcells, Cells.read_map_some]
      simp
    rw [List.length_cons, findFrom, hread, Option.bind_eq_bind, Option.bind_some]
    -- the entry that is looked at moves from the back to the front
    by_cases heq : type = name
    · rw [if_pos heq]
      simp [heq]
    · have hrest := ih (front ++ [type]) (by rw [hcells, List.append_assoc]; rfl)
      rw [List.length_append, List.length_singleton] at hrest
      rw [if_neg heq, hrest]
      have hne : name ≠ type := fun h => heq h.symm
      simp [hne]

theorem Tree.Holds.findTypeTreeName (h : tree.Holds types containers) (name : Str) :
    tree.findTypeTreeName name = some (decide (name ∈ types)) := by
  have hsize : tree.typeTreeCurrentSize.toNatClampNeg = types.length := by
    rw [← Int32.toNat_toInt, h.typeSize, Int.toNat_natCast]
  rw [Tree.findTypeTreeName, hsize]
  exact findFrom_eq _ name [] types h.typeHash

/-- A new type goes behind the others. -/
theorem Tree.Holds.addType (h : tree.Holds types containers) (hroom : types.length + 1 < 2 ^ 31)
    (type : Str) :
    ∃ tree', tree.addType types.length type = some tree' ∧
      tree'.Holds (types ++ [type]) containers := by
  refine ⟨{ tree with
    typeTreeHash := (types ++ [type]).map some,
    typeTreeCurrentSize := tree.typeTreeCurrentSize + 1 }, ?_, rfl, ?_, h.containerHash,
    h.containerSize⟩
  · simp only [Tree.addType, h.typeHash, Cells.resize_succ types h.typeSize, if_pos hroom,
      Cells.write_push, Option.bind_eq_bind, Option.bind_some]
    rfl
  · rw [List.length_append, List.length_singleton]
    exact Cells.toInt_succ h.typeSize hroom

/-- And nowhere behind that. -/
theorem Tree.Holds.le_of_addType (h : tree.Holds types containers) {index : Nat} {type : Str}
    (hadd : tree.addType index type = some tree') :
    index ≤ types.length ∧ types.length + 1 < 2 ^ 31 := by
  obtain ⟨cells, hcells, -⟩ := Option.bind_eq_some_iff.mp hadd
  rw [h.typeHash, Cells.resize_succ types h.typeSize] at hcells
  by_cases hroom : types.length + 1 < 2 ^ 31
  · rw [if_pos hroom] at hcells
    refine ⟨?_, hroom⟩
    by_contra hlt
    rw [Cells.write_of_length_le _ (by simp; omega)] at hcells
    cases hcells
  · rw [if_neg hroom] at hcells
    cases hcells

theorem Tree.Holds.addContainer (h : tree.Holds types containers)
    (hroom : containers.length + 1 < 2 ^ 31) {s : Int32} (hs : s.toInt = containers.length)
    (name : Str) :
    ∃ tree', tree.addContainer s name = some tree' ∧ tree'.Holds types (containers ++ [name]) := by
  refine ⟨{ tree with
    containerTreeHash := (containers ++ [name]).map some,
    containerTreeCurrentSize := tree.containerTreeCurrentSize + 1 }, ?_, h.typeHash, h.typeSize, rfl,
    ?_⟩
  · simp only [Tree.addContainer, h.containerHash, Cells.resize_succ containers h.containerSize,
      if_pos hroom, Cells.writeAt_of_toInt _ hs, Cells.write_push, Option.bind_eq_bind,
      Option.bind_some]
    rfl
  · rw [List.length_append, List.length_singleton]
    exact Cells.toInt_succ h.containerSize hroom

theorem Tree.Holds.room_of_addContainer (h : tree.Holds types containers) {s : Int32} {name : Str}
    (hadd : tree.addContainer s name = some tree') : containers.length + 1 < 2 ^ 31 := by
  obtain ⟨cells, hcells, -⟩ := Option.bind_eq_some_iff.mp hadd
  rw [h.containerHash, Cells.resize_succ containers h.containerSize] at hcells
  by_contra hroom
  rw [if_neg hroom, Cells.writeAt] at hcells
  split at hcells
  · cases hcells
  · rw [Cells.write_of_length_le _ (Nat.zero_le _)] at hcells
    cases hcells

/-! ## What is above -/

/-- `OTF2_UNDEFINED_SYSTEM_TREE_NODE`. -/
def undefinedNode : UInt32 := 0xFFFFFFFF

theorem Tree.parent_undefined : tree.parent undefinedNode.toInt32 = some (sZero, sZero) :=
  if_pos (by decide)

theorem Tree.Holds.read_lt (h : tree.Holds types containers) {p : UInt32}
    (ht : p.toNat < types.length) : p.toNat < 2 ^ 31 := by
  have hlt := tree.typeTreeCurrentSize.toInt_lt
  have hsize := h.typeSize
  omega

theorem Tree.Holds.typeAt (h : tree.Holds types containers) {p : UInt32}
    (hp : p.toNat < 2 ^ 31) : tree.typeTreeHash.readAt p.toInt32 = types[p.toNat]? := by
  rw [Cells.readAt_of_toInt (Cells.toInt_toInt32 hp), h.typeHash, Cells.read_map_some]

theorem Tree.Holds.containerAt (h : tree.Holds types containers) {p : UInt32}
    (hp : p.toNat < 2 ^ 31) : tree.containerTreeHash.readAt p.toInt32 = containers[p.toNat]? := by
  rw [Cells.readAt_of_toInt (Cells.toInt_toInt32 hp), h.containerHash, Cells.read_map_some]

theorem Tree.Holds.parent (h : tree.Holds types containers) {p : UInt32}
    (ht : p.toNat < types.length) (hc : p.toNat < containers.length) :
    tree.parent p.toInt32 = some (types[p.toNat], containers[p.toNat]) := by
  have hlt := h.read_lt ht
  have hneg : ¬ p.toInt32 < 0 := by
    rw [Int32.lt_iff_toInt_lt, Cells.toInt_toInt32 hlt]
    exact not_lt.mpr (Int.natCast_nonneg _)
  rw [Tree.parent, if_neg hneg, h.typeAt hlt, h.containerAt hlt, List.getElem?_eq_getElem ht,
    List.getElem?_eq_getElem hc]
  rfl

theorem Tree.Holds.lt_of_parent (h : tree.Holds types containers) {p : UInt32}
    (hp : p.toNat < 2 ^ 31) {above : Str × Str} (hparent : tree.parent p.toInt32 = some above) :
    p.toNat < types.length := by
  have hneg : ¬ p.toInt32 < 0 := by
    rw [Int32.lt_iff_toInt_lt, Cells.toInt_toInt32 hp]
    exact not_lt.mpr (Int.natCast_nonneg _)
  rw [Tree.parent, if_neg hneg] at hparent
  obtain ⟨type, htype, -⟩ := Option.bind_eq_some_iff.mp hparent
  rw [h.typeAt hp] at htype
  exact (List.getElem?_eq_some_iff.mp htype).1

/-! ## Nodes -/

/-- A node, but for its reference. -/
structure Node where
  name : UInt32
  className : UInt32
  parent : UInt32
  deriving DecidableEq

def Node.define (self : Nat) (node : Node) : Definition :=
  .systemTreeNode (UInt32.ofNat self) node.name node.className node.parent

/-- A string as it is defined. -/
def Names.text (names : Names) (i : UInt32) : Str := (names.stringHash.read i.toNat).getD []

/-- The container of a node. -/
def Node.container (text : UInt32 → Str) (node : Node) : Str := deblank (text node.name)

/-- The class that is read for a node: without blanks if it names the node, or one before. -/
def Node.classRead (text : UInt32 → Str) (before : List Node) (node : Node) : Str :=
  if node.className ∈ (before ++ [node]).map Node.name then deblank (text node.className)
  else text node.className

/-- The container that is above: "0" for no node. -/
def containerAbove (text : UInt32 → Str) (nodes : List Node) (parent : UInt32) : Str :=
  (nodes[parent.toNat]?.map (Node.container text)).getD sZero

/-- The strings, with the blanks taken out of the names of some nodes. -/
def Deblanked (before : Names) (nodes : List Node) (names : Names) : Prop :=
  ∀ i : UInt32, names.stringHash.read i.toNat =
    if i ∈ nodes.map Node.name then (before.stringHash.read i.toNat).map deblank
    else before.stringHash.read i.toNat

/-- **The state after some nodes**, whose distinct classes are `types`. -/
structure NodesDone (st₀ : State) (nodes : List Node) (types : List Str) (st : State) : Prop where
  holds : st.tree.Holds types (nodes.map (Node.container st₀.names.text))
  strings : Deblanked st₀.names nodes st.names
  groups : st.groups = st₀.groups

/-- The strings of a node are defined. -/
def Node.Readable (defined : UInt32 → Prop) (node : Node) : Prop :=
  defined node.name ∧ defined node.className

variable {args : Arguments} {st₀ st : State} {nodes : List Node} {node : Node}

theorem read_text {names : Names} {i : UInt32} (h : names.Readable i) :
    names.stringHash.read i.toNat = some (names.text i) := by
  obtain ⟨text, htext⟩ := Option.isSome_iff_exists.mp h
  rw [Names.text, htext]
  rfl

/-- The blanks of a name are gone, whether a node has had it before or not. -/
theorem NodesDone.deblankAt (h : NodesDone st₀ nodes types st) (hr : node.Readable st₀.names.Readable) :
    ∃ names', st.names.deblankAt node.name = some (names', node.container st₀.names.text) ∧
      Deblanked st₀.names (nodes ++ [node]) names' := by
  have hread : st.names.stringHash.read node.name.toNat =
      some (if node.name ∈ nodes.map Node.name then deblank (st₀.names.text node.name)
        else st₀.names.text node.name) := by
    rw [h.strings, read_text hr.1]
    split <;> rfl
  obtain ⟨names', hnames', -⟩ := deblankAt_of_read hread
  refine ⟨names', ?_, ?_⟩
  · rw [hnames', Node.container]
    split
    · rw [deblank_deblank]
    · rfl
  · intro i
    have hmem : i ∈ (nodes ++ [node]).map Node.name ↔ i = node.name ∨ i ∈ nodes.map Node.name := by
      rw [List.map_append, List.mem_append, or_comm]
      simp
    rw [read_deblankAt hnames', h.strings]
    by_cases hi : i = node.name
    · rw [if_pos (congrArg _ hi), if_pos (hmem.mpr (Or.inl hi))]
      split
      · rw [Option.map_map]
        exact congrArg (fun f => Option.map f _) (funext deblank_deblank)
      · rfl
    · rw [if_neg fun heq => hi (UInt32.toNat_inj.mp heq)]
      simp only [hmem, hi, false_or]

/-- The class that the callback of a node reads. -/
theorem read_class {names' : Names} (hr : node.Readable st₀.names.Readable)
    (h : Deblanked st₀.names (nodes ++ [node]) names') :
    names'.stringHash.read node.className.toNat = some (node.classRead st₀.names.text nodes) := by
  rw [h, read_text hr.2, Node.classRead]
  split <;> rfl

/-- What is written for a node. -/
def nodeOuts (args : Arguments) (types : List Str) (type parentType name container : Str) :
    List Paje :=
  if args.dummy then []
  else (if type ∈ types then [] else [.defineContainerType type parentType type]) ++
    [.createContainer 0 name type container name]

/-- **When a node fits**: there is room, what is above it has a type of its own, and its class is
    new only if all classes were. -/
structure Node.Fits (text : UInt32 → Str) (nodes : List Node) (types : List Str) (node : Node) :
    Prop where
  room : nodes.length + 1 < 2 ^ 31
  above : node.parent = undefinedNode ∨ node.parent.toNat < types.length
  new : node.classRead text nodes ∈ types ∨ types.length = nodes.length

/-- The types after a node. -/
def typesAfter (types : List Str) (type : Str) : List Str :=
  if type ∈ types then types else types ++ [type]

theorem toNat_ofNat {k : Nat} (h : k < 2 ^ 31) : (UInt32.ofNat k).toNat = k :=
  UInt32.toNat_ofNat_of_lt' (lt_trans h (by decide))

theorem toInt32_ofNat {k : Nat} (h : k < 2 ^ 31) : (UInt32.ofNat k).toInt32.toInt = k := by
  rw [Cells.toInt_toInt32 (by rwa [toNat_ofNat h]), toNat_ofNat h]

/-- Declaring a class is finding it, or room for it. -/
theorem Tree.Holds.declareType (h : tree.Holds types containers) {index : Nat} {type : Str}
    (hnew : type ∈ types ∨ types.length = index ∧ types.length + 1 < 2 ^ 31) :
    ∃ tree', tree.declareType index type = some (tree', decide (type ∉ types)) ∧
      tree'.Holds (typesAfter types type) containers := by
  rw [Tree.declareType, h.findTypeTreeName, Option.bind_eq_bind, Option.bind_some, typesAfter]
  by_cases hmem : type ∈ types
  · exact ⟨tree, by simp [hmem], by rwa [if_pos hmem]⟩
  · obtain ⟨rfl, hroom⟩ := hnew.resolve_left hmem
    obtain ⟨tree', hadd, hholds⟩ := h.addType hroom type
    exact ⟨tree', by simp [hmem, hadd], by rwa [if_neg hmem]⟩

theorem Tree.Holds.le_of_declareType (h : tree.Holds types containers) {index : Nat} {type : Str}
    {result : Tree × Bool} (hdeclare : tree.declareType index type = some result) :
    type ∈ types ∨ index ≤ types.length ∧ types.length + 1 < 2 ^ 31 := by
  rw [Tree.declareType, h.findTypeTreeName, Option.bind_eq_bind, Option.bind_some] at hdeclare
  by_cases hmem : type ∈ types
  · exact Or.inl hmem
  · rw [if_neg (by simpa using hmem)] at hdeclare
    obtain ⟨tree', hadd, -⟩ := Option.map_eq_some_iff.mp hdeclare
    exact Or.inr (h.le_of_addType hadd)

/-- The parent of a node: none, or a node before it. -/
def Node.Ordered (nodes : List Node) (node : Node) : Prop :=
  node.parent = undefinedNode ∨ node.parent.toNat < nodes.length

theorem containerAbove_undefined (text : UInt32 → Str) (h : nodes.length < 2 ^ 32) :
    containerAbove text nodes undefinedNode = sZero := by
  have hle : nodes.length ≤ undefinedNode.toNat := by
    have heq : undefinedNode.toNat = 2 ^ 32 - 1 := rfl
    omega
  rw [containerAbove, List.getElem?_eq_none hle]
  rfl

/-- The type that is above: "0" for no node. -/
def typeAbove (types : List Str) (parent : UInt32) : Str := types[parent.toNat]?.getD sZero

theorem NodesDone.parent (h : NodesDone st₀ nodes types st) (hlen : nodes.length < 2 ^ 32)
    (ho : node.Ordered nodes)
    (habove : node.parent = undefinedNode ∨ node.parent.toNat < types.length) :
    st.tree.parent node.parent.toInt32 =
      some (typeAbove types node.parent, containerAbove st₀.names.text nodes node.parent) := by
  by_cases hroot : node.parent = undefinedNode
  · have hle : types.length ≤ undefinedNode.toNat := by
      by_contra hlt
      exact absurd (h.holds.read_lt (not_le.mp hlt)) (by decide)
    rw [hroot, containerAbove_undefined _ hlen, typeAbove, List.getElem?_eq_none hle]
    exact Tree.parent_undefined
  · have ht := habove.resolve_left hroot
    have hc := ho.resolve_left hroot
    rw [h.holds.parent ht (by simpa using hc), typeAbove, containerAbove,
      List.getElem?_eq_getElem ht, List.getElem?_eq_getElem hc, List.getElem_map]
    rfl

/-- **A node that fits goes through**, and its container is under the one of its parent. -/
theorem NodesDone.step (h : NodesDone st₀ nodes types st) (args : Arguments)
    (hr : node.Readable st₀.names.Readable) (ho : node.Ordered nodes)
    (hf : node.Fits st₀.names.text nodes types) :
    ∃ st', (node.define nodes.length).call args .default st =
        some (st', nodeOuts args types (node.classRead st₀.names.text nodes)
          (typeAbove types node.parent) (node.container st₀.names.text)
          (containerAbove st₀.names.text nodes node.parent)) ∧
      NodesDone st₀ (nodes ++ [node]) (typesAfter types (node.classRead st₀.names.text nodes)) st' := by
  have hroom := hf.room
  obtain ⟨names', hname, hstrings⟩ := h.deblankAt hr
  have hparent := h.parent (by omega) ho hf.above
  have hself : (UInt32.ofNat nodes.length).toNat = nodes.length := toNat_ofNat (by omega)
  -- the type comes first, then the container
  obtain ⟨tree₁, htype, hholds₁⟩ := h.holds.declareType (hf.new.imp_right fun heq => ⟨heq, by omega⟩)
  have hlen : (nodes.map (Node.container st₀.names.text)).length = nodes.length := List.length_map _
  obtain ⟨tree₂, hadd, hholds₂⟩ := hholds₁.addContainer (by omega)
    (by rw [hlen]; exact toInt32_ofNat (by omega)) (node.container st₀.names.text)
  refine ⟨{ st with names := names', tree := tree₂ }, ?_, ?_, hstrings, h.groups⟩
  · simp only [Node.define, Definition.call, systemTreeNode, hname, read_class hr hstrings, hparent,
      hself, htype, hadd, Option.bind_eq_bind, Option.bind_some, nodeOuts]
    by_cases hmem : node.classRead st₀.names.text nodes ∈ types <;> simp [hmem]
  · rw [List.map_append]
    exact hholds₂

theorem NodesDone.length_lt (h : NodesDone st₀ nodes types st) : nodes.length < 2 ^ 31 := by
  have hlt := st.tree.containerTreeCurrentSize.toInt_lt
  have hsize := h.holds.containerSize
  rw [List.length_map] at hsize
  omega

/-- **And no other.** -/
theorem NodesDone.fits (h : NodesDone st₀ nodes types st) (hle : types.length ≤ nodes.length)
    (hr : node.Readable st₀.names.Readable) (ho : node.Ordered nodes) {result : State × List Paje}
    (hcall : (node.define nodes.length).call args .default st = some result) :
    node.Fits st₀.names.text nodes types := by
  have hlt := h.length_lt
  obtain ⟨names', hname, hstrings⟩ := h.deblankAt hr
  have hself : (UInt32.ofNat nodes.length).toNat = nodes.length := toNat_ofNat hlt
  obtain ⟨⟨names₁, nameStr⟩, hname₁, hcall⟩ := Option.bind_eq_some_iff.mp hcall
  obtain ⟨classStr, hclass, hcall⟩ := Option.bind_eq_some_iff.mp hcall
  obtain ⟨above, hparent, hcall⟩ := Option.bind_eq_some_iff.mp hcall
  obtain ⟨⟨tree₁, new⟩, htype, hcall⟩ := Option.bind_eq_some_iff.mp hcall
  obtain ⟨tree₂, hadd, -⟩ := Option.bind_eq_some_iff.mp hcall
  cases hname.symm.trans hname₁
  cases (read_class hr hstrings).symm.trans hclass
  rw [hself] at htype
  -- the type went right behind the others, or was found
  have hnew : node.classRead st₀.names.text nodes ∈ types ∨
      types.length = nodes.length ∧ types.length + 1 < 2 ^ 31 :=
    (h.holds.le_of_declareType htype).imp_right fun hroom => ⟨by omega, hroom.2⟩
  obtain ⟨tree₁', htype', hholds⟩ := h.holds.declareType hnew
  cases htype.symm.trans htype'
  have hroom := hholds.room_of_addContainer hadd
  rw [List.length_map] at hroom
  refine ⟨hroom, ?_, hnew.imp_right And.left⟩
  by_cases hroot : node.parent = undefinedNode
  · exact Or.inl hroot
  · have hbefore := ho.resolve_left hroot
    exact Or.inr (h.holds.lt_of_parent (by omega) hparent)

end Otf2
end Akypuera

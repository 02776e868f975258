import Akypuera.Otf2.Hostfile
import Akypuera.Lib.Cells
import Akypuera.Keys.Store

/-!
# The callbacks of otf22paje (`otf22paje_handlers.c`, `otf22paje.c`)

The OTF2 reader is not part of the repository: it calls one of these functions for each global
definition, then for each event. The functions share static arrays that are indexed by the
references of the definitions and resized as they come; `none` is an access outside an array or to
an entry that was not written.

Arguments that a function does not use are left out. All strings are in `string_hash`; the other
tables hold copies, or references to it.
-/

set_option autoImplicit false

namespace Akypuera
namespace Otf2

open CText Keys

/-- The flags of `struct arguments` that the callbacks read. -/
structure Arguments where
  dummy : Bool
  noStates : Bool
  onlyMpi : Bool
  deriving DecidableEq

/-- The hierarchies that `main` can select. -/
inductive Mode where
  | default
  | flat
  | hostfile
  deriving DecidableEq

/-- The global definitions that `main` registers callbacks for. -/
inductive Definition where
  | string (self : UInt32) (text : Str)
  | region (self name : UInt32)
  | systemTreeNode (self name className parent : UInt32)
  | locationGroup (self name systemTreeParent : UInt32)
  | location (self : UInt64) (name : UInt32) (locationType : UInt8) (locationGroup : UInt32)
  deriving DecidableEq

/-- `string_hash` and `region_name_map`. -/
structure Names where
  stringHash : Cells Str
  regionNameMap : Cells Int32

/-- `type_tree_hash` and `container_tree_hash`, with their sizes. -/
structure Tree where
  typeTreeHash : Cells Str
  typeTreeCurrentSize : Int32
  containerTreeHash : Cells Str
  containerTreeCurrentSize : Int32

/-- The static data, and the user data: the groups with the nodes they are on, and the locations. -/
structure State where
  names : Names
  tree : Tree
  groups : List UInt32
  locations : List UInt64
  hierarchy : Hierarchy

def State.init : State where
  names := { stringHash := [], regionNameMap := [] }
  tree :=
    { typeTreeHash := [], typeTreeCurrentSize := 0, containerTreeHash := [],
      containerTreeCurrentSize := 0 }
  groups := []
  locations := []
  hierarchy := Hierarchy.init

def sThread : Str := "thread".toList
def sState : Str := "STATE".toList
def sLink : Str := "LINK".toList
def sProcess : Str := "P".toList

/-! ## Strings and regions -/

/-- `otf22paje_global_def_string`: the array gets the size of the last reference, larger or
    smaller. -/
def Names.string (names : Names) (self : UInt32) (text : Str) : Option Names := do
  let cells ← (names.stringHash.resize (self + 1).toInt32).write self.toNat text
  return { names with stringHash := cells }

/-- `otf22paje_global_def_region`. -/
def Names.region (names : Names) (self name : UInt32) : Option Names := do
  let cells ← (names.regionNameMap.resize (self + 1).toInt32).write self.toNat name.toInt32
  return { names with regionNameMap := cells }

/-- `deblank`. -/
def deblank (input : Str) : Str := input.filter (· ≠ ' ')

/-- `deblank (string_hash[name])`, in place. -/
def Names.deblankAt (names : Names) (name : UInt32) : Option (Names × Str) := do
  let string ← names.stringHash.read name.toNat
  let cells ← names.stringHash.write name.toNat (deblank string)
  return ({ names with stringHash := cells }, deblank string)

/-! ## The tree -/

/-- The loop of `find_type_tree_name` over `n` entries from `i` on. -/
def findFrom (cells : Cells Str) (name : Str) : Nat → Nat → Option Bool
  | 0, _ => some false
  | n + 1, i => do
      let type ← cells.read i
      if type = name then return true else findFrom cells name n (i + 1)

/-- `find_type_tree_name (name) != NULL`. -/
def Tree.findTypeTreeName (tree : Tree) (name : Str) : Option Bool :=
  findFrom tree.typeTreeHash name tree.typeTreeCurrentSize.toNatClampNeg 0

/-- A new type: **the array grows by one, whatever the index**. -/
def Tree.addType (tree : Tree) (index : Nat) (type : Str) : Option Tree := do
  let size := tree.typeTreeCurrentSize + 1
  let cells ← (tree.typeTreeHash.resize size).write index type
  return { tree with typeTreeHash := cells, typeTreeCurrentSize := size }

/-- A type that is looked up first, and whether it is new. -/
def Tree.declareType (tree : Tree) (index : Nat) (type : Str) : Option (Tree × Bool) := do
  let found ← tree.findTypeTreeName type
  if found then return (tree, false) else (tree.addType index type).map fun tree => (tree, true)

/-- A new container. -/
def Tree.addContainer (tree : Tree) (s : Int32) (name : Str) : Option Tree := do
  let size := tree.containerTreeCurrentSize + 1
  let cells ← (tree.containerTreeHash.resize size).writeAt s name
  return { tree with containerTreeHash := cells, containerTreeCurrentSize := size }

/-- The type and the container of a parent; a negative one is the root. -/
def Tree.parent (tree : Tree) (p : Int32) : Option (Str × Str) :=
  if p < 0 then some (sZero, sZero)
  else do
    let containerType ← tree.typeTreeHash.readAt p
    let container ← tree.containerTreeHash.readAt p
    return (containerType, container)

/-- `otf22paje_global_def_system_tree_node`. -/
def systemTreeNode (args : Arguments) (st : State) (self name className parent : UInt32) :
    Option (State × List Paje) := do
  let (names, nameStr) ← st.names.deblankAt name
  let classStr ← names.stringHash.read className.toNat
  let (containerType, container) ← st.tree.parent parent.toInt32
  let (tree, new) ← st.tree.declareType self.toNat classStr
  let outs := if args.dummy then [] else
    (if new then [.defineContainerType classStr containerType classStr] else []) ++
      [.createContainer 0 nameStr classStr container nameStr]
  let tree ← tree.addContainer self.toInt32 nameStr
  return ({ st with names := names, tree := tree }, outs)

/-- `otf22paje_global_def_system_tree_node_hostfile`. -/
def systemTreeNodeHostfile (st : State) (self name : UInt32) : Option (State × List Paje) := do
  let (names, nameStr) ← st.names.deblankAt name
  let tree ← st.tree.addContainer self.toInt32 nameStr
  return ({ st with names := names, tree := tree }, [])

/-! ## Groups and locations -/

/-- `"t%d"` of a group. -/
def mpiProcess (self : UInt32) : Str :=
  fit akyDefaultStrSize ('t' :: fmtInt self.toInt32.toInt)

/-- The types that both group callbacks without a tree declare, and the container. -/
def createGroup (args : Arguments) (st : State) (self : UInt32) (parentType container nameStr : Str) :
    State × List Paje :=
  if args.dummy then (st, [])
  else
    let (h, outs₁) := nfContainerTypeDeclare st.hierarchy sProcess (some parentType)
    let (h, outs₂) := nfStateTypeDeclare h sState sProcess
    let (h, outs₃) := nfLinkTypeDeclare h sLink sZero sProcess sProcess
    ({ st with hierarchy := h },
      outs₁ ++ outs₂ ++ outs₃ ++ [.createContainer 0 (mpiProcess self) sProcess container nameStr])

/-- `otf22paje_global_def_location_group_flat`. -/
def locationGroupFlat (args : Arguments) (st : State) (self name : UInt32) :
    Option (State × List Paje) := do
  let nameStr ← st.names.stringHash.read name.toNat
  return createGroup args st self sZero sZero nameStr

/-- `otf22paje_global_def_location_group_hostfile`: the container's name up to its first dot. -/
def locationGroupHostfile (args : Arguments) (st : State) (self name systemTreeParent : UInt32) :
    Option (State × List Paje) := do
  let nameStr ← st.names.stringHash.read name.toNat
  let container ← st.tree.containerTreeHash.readAt systemTreeParent.toInt32
  return createGroup args st self sHost (container.takeWhile (· ≠ '.')) nameStr

/-- `otf22paje_global_def_location_group`: the group is remembered. -/
def locationGroup (st : State) (name systemTreeParent : UInt32) : Option (State × List Paje) := do
  let _ ← st.names.stringHash.read name.toNat
  return ({ st with groups := st.groups ++ [systemTreeParent] }, [])

/-- `"t%ld"` of a location. -/
def threadStr (self : UInt64) : Str :=
  fit akyDefaultStrSize ('t' :: fmtInt self.toInt64.toInt)

/-- `otf22paje_global_def_location`. The array of locations has room for all of them: its size is
    their number in the anchor file. -/
def location (args : Arguments) (st : State) (self : UInt64) (name : UInt32) (locationType : UInt8)
    (locationGroup : UInt32) : Option (State × List Paje) := do
  let _ ← st.names.stringHash.read name.toNat
  let st := { st with locations := st.locations ++ [self] }
  let group ← st.groups[locationGroup.toNat]?
  let node := group.toInt32
  let container ← st.tree.containerTreeHash.readAt node
  let containerType ← st.tree.typeTreeHash.readAt node
  let (tree, new) ← st.tree.declareType locationType.toNat sThread
  let outs := if args.dummy then [] else
    (if new then
      [.defineContainerType sThread containerType sThread, .defineStateType sState sThread sState,
        .defineLinkType sLink sZero sThread sThread sLink] else []) ++
      [.createContainer 0 (threadStr self) sThread container (threadStr self)]
  return ({ st with tree := tree }, outs)

/-! ## Definitions in the three modes -/

/-- The callback of a definition, as `main` registers them. -/
def Definition.call (args : Arguments) (mode : Mode) (st : State) :
    Definition → Option (State × List Paje)
  | .string self text => (st.names.string self text).map fun names => ({ st with names }, [])
  | .region self name => (st.names.region self name).map fun names => ({ st with names }, [])
  | .systemTreeNode self name className parent =>
      match mode with
      | .default => Otf2.systemTreeNode args st self name className parent
      | .flat => some (st, [])
      | .hostfile => systemTreeNodeHostfile st self name
  | .locationGroup self name systemTreeParent =>
      match mode with
      | .default => Otf2.locationGroup st name systemTreeParent
      | .flat => locationGroupFlat args st self name
      | .hostfile => locationGroupHostfile args st self name systemTreeParent
  | .location self name locationType group =>
      Otf2.location args st self name locationType group

/-- The callbacks of some definitions, one after the other, with what each wrote. -/
def run (args : Arguments) (mode : Mode) (st : State) :
    List Definition → Option (State × List (Definition × List Paje))
  | [] => some (st, [])
  | d :: ds => do
      let (st, outs) ← d.call args mode st
      let (st, rounds) ← run args mode st ds
      return (st, (d, outs) :: rounds)

/-! ## Events -/

/-- The text of a region: `string_hash[region_name_map[regionID]]`. -/
def Names.stateName (names : Names) (regionID : UInt32) : Option Str := do
  let name ← names.regionNameMap.read regionID.toNat
  names.stringHash.readAt name

/-- `otf22paje_enter`, at the time in seconds that `time_to_seconds` makes of the event's. -/
def enter (args : Arguments) (names : Names) (seconds : ℚ) (locationID : UInt64)
    (regionID : UInt32) : Option (List Paje) := do
  let stateName ← names.stateName regionID
  if args.onlyMpi ∧ ¬ "MPI_".toList <:+: stateName then return []
  else if args.dummy ∨ args.noStates then return []
  else return [.pushState seconds (threadStr locationID) sState stateName]

/-- `otf22paje_leave`. -/
def leave (args : Arguments) (names : Names) (seconds : ℚ) (locationID : UInt64)
    (regionID : UInt32) : Option (List Paje) := do
  let stateName ← names.stateName regionID
  if args.onlyMpi ∧ ¬ "MPI_".toList <:+: stateName then return []
  else if args.dummy ∨ args.noStates then return []
  else return [.popState seconds (threadStr locationID) sState]

/-- The events that `main` registers callbacks for. -/
inductive Event where
  | enter (seconds : ℚ) (locationID : UInt64) (regionID : UInt32)
  | leave (seconds : ℚ) (locationID : UInt64) (regionID : UInt32)
  deriving DecidableEq

/-- The callback of an event. -/
def Event.call (args : Arguments) (names : Names) : Event → Option (List Paje)
  | .enter seconds locationID regionID => Otf2.enter args names seconds locationID regionID
  | .leave seconds locationID regionID => Otf2.leave args names seconds locationID regionID

/-- The callbacks of some events, one after the other, with what each wrote. No event changes the
    names. -/
def runEvents (args : Arguments) (names : Names) : List Event → Option (List (Event × List Paje))
  | [] => some []
  | e :: es => do
      let outs ← e.call args names
      let rounds ← runEvents args names es
      return (e, outs) :: rounds

end Otf2
end Akypuera

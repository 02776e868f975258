import Akypuera.Lib.CText

/-!
# The hostfile and its hierarchy (`otf22paje_hostfile.c`)

Each line of a hostfile is a path in a hierarchy, from a host up: fields between dots, the first of
them a cluster and a host between dashes. Reading it declares a container type for each level and
creates the containers of each path, both **at most once for each name**, whatever the rest.

An access through a bad pointer is `Stop.fault`. The `int` counters are natural numbers, and none
goes down again, so that no `int` overflows exactly if they are all small at the end
(`Hierarchy.InRange`).
-/

set_option autoImplicit false

namespace Akypuera
namespace Otf2

open CText

/-- How the process ends before its time. -/
inductive Stop where
  | exit (status : Nat)
  | fault
  deriving DecidableEq

/-- The Paje events that otf22paje writes. -/
inductive Paje where
  | defineContainerType (aliasName type name : Str)
  | defineStateType (aliasName type name : Str)
  | defineLinkType (aliasName type source dest name : Str)
  | createContainer (time : ℚ) (aliasName type container name : Str)
  | pushState (time : ℚ) (container type value : Str)
  | popState (time : ℚ) (container type : Str)
  deriving DecidableEq

/-- The static data of the file: the arrays of names, and the number of fields of the lines, which
    is -1 before the first. -/
structure Hierarchy where
  types : List Str
  containers : List Str
  hostnames : List Str
  depth : Option Nat
  deriving DecidableEq

def Hierarchy.init : Hierarchy where
  types := []
  containers := []
  hostnames := []
  depth := none

/-- **No `int` has overflowed**: not the three sizes, and not the `j` that counted the fields. -/
structure Hierarchy.InRange (h : Hierarchy) : Prop where
  types : h.types.length < 2 ^ 31
  containers : h.containers.length < 2 ^ 31
  hostnames : h.hostnames.length < 2 ^ 31
  depth : ∀ d ∈ h.depth, d < 2 ^ 31

def sZero : Str := "0".toList
def sHost : Str := "H".toList

/-- `"L%d"`, for which 200 bytes are always enough. -/
def levelType (j : Nat) : Str := 'L' :: fmtNat j

/-- `nf_hostname_add`. -/
def nfHostnameAdd (h : Hierarchy) (host : Str) : Hierarchy :=
  { h with hostnames := h.hostnames ++ [host] }

/-- `nf_container_type_declare`. -/
def nfContainerTypeDeclare (h : Hierarchy) (newContainerType : Str) (containerType : Option Str) :
    Hierarchy × List Paje :=
  if newContainerType ∈ h.types then (h, [])
  else ({ h with types := h.types ++ [newContainerType] },
    [.defineContainerType newContainerType (containerType.getD sZero) newContainerType])

/-- `nf_state_type_declare`. -/
def nfStateTypeDeclare (h : Hierarchy) (newStateType containerType : Str) :
    Hierarchy × List Paje :=
  if newStateType ∈ h.types then (h, [])
  else ({ h with types := h.types ++ [newStateType] },
    [.defineStateType newStateType containerType newStateType])

/-- `nf_link_type_declare`. -/
def nfLinkTypeDeclare (h : Hierarchy) (newLinkType containerType sourceContType destContType : Str) :
    Hierarchy × List Paje :=
  if newLinkType ∈ h.types then (h, [])
  else ({ h with types := h.types ++ [newLinkType] },
    [.defineLinkType newLinkType containerType sourceContType destContType newLinkType])

/-- `nf_container_create`. -/
def nfContainerCreate (h : Hierarchy) (newContainer newContainerType : Str)
    (container : Option Str) : Hierarchy × List Paje :=
  if newContainer ∈ h.containers then (h, [])
  else ({ h with containers := h.containers ++ [newContainer] },
    [.createContainer 0 newContainer newContainerType (container.getD sZero) newContainer])

/-- The tokens that `strtok_r` takes from a text, one after the other. -/
def strtok (sep : Char) (s : Str) : List Str := (s.splitOn sep).filter (· ≠ [])

/-- `for (j = depth-1; j > 0; j--)`: the containers of a line above its cluster. -/
def createLevels (hierarchy : List Str) : Nat → Hierarchy → Hierarchy × List Paje
  | 0, h => (h, [])
  | j + 1, h =>
      let container := if j + 2 = hierarchy.length then none else hierarchy[j + 2]?
      let containerType := if j + 2 = hierarchy.length then none else some (levelType (j + 2))
      let (h, outs₁) := nfContainerTypeDeclare h (levelType (j + 1)) containerType
      -- the index is inside: there are as many fields as the loop counts
      let (h, outs₂) := nfContainerCreate h (hierarchy[j + 1]?.getD []) (levelType (j + 1)) container
      let (h, outs₃) := createLevels hierarchy j h
      (h, outs₁ ++ outs₂ ++ outs₃)

/-- One line. The first one says how many fields all have to have. -/
def nfLine (h : Hierarchy) (line : Str) : Except Stop (Hierarchy × List Paje) :=
  let hierarchy := strtok '.' (cstr line)
  if h.depth.getD hierarchy.length ≠ hierarchy.length then .error (.exit 1)
  else
    let h := { h with depth := some hierarchy.length }
    let (h, outs) := createLevels hierarchy (hierarchy.length - 1) h
    match hierarchy with
    | host :: clusterContainer :: _ =>
        match strtok '-' host with
        | [cluster, _] =>
            let (h, outs₁) := nfContainerTypeDeclare h (levelType 0) (some (levelType 1))
            let (h, outs₂) := nfContainerCreate h cluster (levelType 0) (some clusterContainer)
            let (h, outs₃) := nfContainerTypeDeclare h sHost (some (levelType 0))
            let (h, outs₄) := nfContainerCreate h host sHost (some cluster)
            .ok (nfHostnameAdd h host, outs ++ outs₁ ++ outs₂ ++ outs₃ ++ outs₄)
        | _ => .error (.exit 1)
    -- `hierarchy[0]` or `hierarchy[1]` is not there
    | _ => .error .fault

/-- Lines, one after the other. -/
def nfLines (h : Hierarchy) : List Str → Except Stop (Hierarchy × List Paje)
  | [] => .ok (h, [])
  | line :: lines =>
      match nfLine h line with
      | .error stop => .error stop
      | .ok (h, outs) =>
          match nfLines h lines with
          | .error stop => .error stop
          | .ok (h, outs') => .ok (h, outs ++ outs')

/-- `nf_read_and_create_hierarchy` on a file with this text. `getline` sets the end-of-file flag
    when it meets the end before a newline, and the loop breaks at the flag before it looks at the
    line: **what stands after the last newline is not read.** -/
def nfReadAndCreateHierarchy (h : Hierarchy) (text : Str) : Except Stop (Hierarchy × List Paje) :=
  nfLines h (text.splitOn '\n').dropLast

end Otf2
end Akypuera

import Mathlib
import Akypuera.Lib.Search
import Akypuera.Events.Rastro

/-!
# What the tracing library remembers (`aky_aux.c`)

Two search trees, `aky_irecv_root` and `aky_isend_root`, hold the requests of non-blocking
calls. Their nodes are ordered by the text `%p` prints for the request variable's address, so
a tree is a map from addresses; **`aky_insert` keeps what is there**, since `tsearch` does.

An address is counted in units of `sizeof (MPI_Request)`, so that `&array_of_requests[i]` is
the base plus `i`, for any `int` the library is given as an index.
-/

set_option autoImplicit false

namespace Akypuera
namespace Tracer

open Search

/-- The address of a request variable. -/
abbrev Ptr := Int

/-- `aky_insert`. -/
def akyInsert (req : Ptr) (root : Tree Ptr Int32) (mark : Int32) : Tree Ptr Int32 :=
  root.tsearch req mark

/-- `aky_remove`. -/
def akyRemove (req : Ptr) (root : Tree Ptr Int32) : Tree Ptr Int32 := root.tdelete req

/-- `aky_check`: 0 for a request that is not there, -1 for one that is there with mark 0. -/
def akyCheck (req : Ptr) (root : Tree Ptr Int32) : Int32 :=
  match root.tfind req with
  | some mark => if mark ≠ 0 then mark else -1
  | none => 0

/-- The static data of the library: `send_mark` and the two trees. -/
structure Library where
  sendMark : UInt64
  irecv : Tree Ptr Int32
  isend : Tree Ptr Int32

/-- The data before `MPI_Init`. -/
def Library.init : Library := { sendMark := 0, irecv := Tree.empty, isend := Tree.empty }

/-- `aky_insert_irecv`. -/
def akyInsertIrecv (tr : Library) (req : Ptr) : Library :=
  { tr with irecv := akyInsert req tr.irecv 1 }

/-- `aky_remove_irecv`. -/
def akyRemoveIrecv (tr : Library) (req : Ptr) : Library :=
  { tr with irecv := akyRemove req tr.irecv }

/-- `aky_check_irecv`. -/
def akyCheckIrecv (tr : Library) (req : Ptr) : Int32 := akyCheck req tr.irecv

/-- `aky_insert_isend`. -/
def akyInsertIsend (tr : Library) (req : Ptr) (mark : Int32) : Library :=
  { tr with isend := akyInsert req tr.isend mark }

/-- `aky_remove_isend`. -/
def akyRemoveIsend (tr : Library) (req : Ptr) : Library :=
  { tr with isend := akyRemove req tr.isend }

/-- `aky_check_isend`. -/
def akyCheckIsend (tr : Library) (req : Ptr) : Int32 := akyCheck req tr.isend

/-- What MPI tells a process about a communicator: its rank there, the size, and the ranks of
    the members in `MPI_COMM_WORLD`. -/
structure Comm where
  rank : Int32
  size : Int32
  world : Int32 → Int32

/-- `AKY_translate_rank`. -/
def akyTranslateRank (comm : Comm) (rank : Int32) : Int32 := comm.world rank

/-- `aky_check` answers 0 only for a request that is not in the tree. -/
theorem akyCheck_ne_zero {req : Ptr} {root : Tree Ptr Int32} :
    akyCheck req root ≠ 0 ↔ (root.tfind req).isSome = true := by
  unfold akyCheck
  cases root.tfind req with
  | none => simp
  | some mark =>
    by_cases hm : mark = 0
    · simp [hm]
    · simp [hm]

end Tracer
end Akypuera

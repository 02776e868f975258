import Mathlib
import Akypuera.Events.Codes

/-!
# Records, and the events they are decoded to

`librastro` is not part of the repository: `aky_rastro.c` hands it a type number and a few
fields, and the converter gets them back in an `rst_event_t`. What the two sides rely on is
stated here as a relation, `Event.Decodes`: an event carries **exactly** the 32-bit and 64-bit
fields it was recorded with.

The field arrays of an event are total functions. Only the first `nUint32` and `nUint64`
entries are fields of the record; the rest is whatever the reused event structure held, and no
result may depend on it.
-/

set_option autoImplicit false

namespace Akypuera

/-- What one `rst_event…` call writes: a type number, the 32-bit fields and the 64-bit fields. -/
structure Record where
  type : Nat
  u32 : List UInt32
  u64 : List UInt64
  deriving DecidableEq

/-- `rst_event`. -/
def rstEvent (type : Nat) : Record := ⟨type, [], []⟩

/-- `rst_event_i`. -/
def rstEventI (type : Nat) (i0 : UInt32) : Record := ⟨type, [i0], []⟩

/-- `rst_event_l`. -/
def rstEventL (type : Nat) (l0 : UInt64) : Record := ⟨type, [], [l0]⟩

/-- `rst_event_il`. -/
def rstEventIl (type : Nat) (i0 : UInt32) (l0 : UInt64) : Record := ⟨type, [i0], [l0]⟩

/-- `rst_event_iil`. -/
def rstEventIil (type : Nat) (i0 i1 : UInt32) (l0 : UInt64) : Record := ⟨type, [i0, i1], [l0]⟩

/-- `rst_event_t`: who recorded it, when, and the fields. -/
structure Event where
  id1 : UInt64
  type : Nat
  timestamp : ℚ
  nUint32 : Nat
  nUint64 : Nat
  vUint32 : Nat → UInt32
  vUint64 : Nat → UInt64

/-- The event read back from a record of process `id`. -/
structure Event.Decodes (id : UInt64) (r : Record) (e : Event) : Prop where
  id1 : e.id1 = id
  type : e.type = r.type
  nUint32 : e.nUint32 = r.u32.length
  nUint64 : e.nUint64 = r.u64.length
  vUint32 : ∀ i (h : i < r.u32.length), e.vUint32 i = r.u32.get ⟨i, h⟩
  vUint64 : ∀ i (h : i < r.u64.length), e.vUint64 i = r.u64.get ⟨i, h⟩

/-- The event whose slack is zero. -/
def Event.ofRecord (id : UInt64) (t : ℚ) (r : Record) : Event where
  id1 := id
  type := r.type
  timestamp := t
  nUint32 := r.u32.length
  nUint64 := r.u64.length
  vUint32 i := r.u32.getD i 0
  vUint64 i := r.u64.getD i 0

theorem Event.decodes_ofRecord (id : UInt64) (t : ℚ) (r : Record) :
    Event.Decodes id r (Event.ofRecord id t r) where
  id1 := rfl
  type := rfl
  nUint32 := rfl
  nUint64 := rfl
  vUint32 i h := by simp [ofRecord, List.getD_eq_getElem?_getD, h]
  vUint64 i h := by simp [ofRecord, List.getD_eq_getElem?_getD, h]

end Akypuera

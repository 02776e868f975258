import Akypuera.System.Collectives
import Akypuera.System.Receives

/-!
# The marks of waits

`MPI_Isend` gives its request the next mark, and `MPI_Wait` reports the mark of the request it
waits for. It reads it off a table that only `MPI_Wait` itself takes requests out of, and into
which an address that is already there is not put again. So **what a wait reports is the mark
of the first `MPI_Isend` into the variable since it was last given to `MPI_Wait`**
(`waitEntered_eq`), and that is the request the variable holds as long as nothing but
`MPI_Wait` completes it (`Proc.Fresh`).

The mark passes through an `int` on its way (`intMark`), which the first 2^31 marks survive.
-/

set_option autoImplicit false

namespace Akypuera
namespace System

open Code Converter Tracer Search

/-! ## Marks as `int`s -/

/-- What comes back of a mark that is kept as an `int`, where -1 stands for 0. -/
def intMark (mark : UInt64) : UInt64 :=
  if mark.toUInt32.toInt32 = -1 then 0 else ofInt mark.toUInt32.toInt32

theorem ofInt_narrow {mark : UInt64} (h : mark.toNat < 2 ^ 31) :
    ofInt mark.toUInt32.toInt32 = mark := by
  have hmsb : (mark.toBitVec.setWidth 32).msb = false := by
    rw [BitVec.msb_eq_false_iff_two_mul_lt, BitVec.toNat_setWidth]
    show 2 * (mark.toNat % 2 ^ 32) < 2 ^ 32
    omega
  apply UInt64.toBitVec_inj.mp
  show (mark.toBitVec.setWidth 32).signExtend 64 = mark.toBitVec
  rw [BitVec.signExtend_eq_setWidth_of_msb_false hmsb]
  apply BitVec.eq_of_toNat_eq
  rw [BitVec.toNat_setWidth, BitVec.toNat_setWidth]
  show mark.toNat % 2 ^ 32 % 2 ^ 64 = mark.toNat
  omega

theorem intMark_of_lt {mark : UInt64} (h : mark.toNat < 2 ^ 31) : intMark mark = mark := by
  unfold intMark
  by_cases hm : mark.toUInt32.toInt32 = -1
  · have hneg := ofInt_narrow h
    rw [hm] at hneg
    rw [← hneg] at h
    exact absurd h (by decide)
  · rw [if_neg hm, ofInt_narrow h]

/-! ## What a wait reports -/

/-- The first record of `MPI_Wait`, in terms of the calls before it. -/
theorem waitEntered_eq {st : Proc} {tr : Library} (h : Agrees st tr) (request : Ptr) :
    waitEntered tr request = match (st.isends request).head? with
      | some mark => rstEventL mpiWaitIn (intMark mark)
      | none => rstEvent mpiWaitIn := by
  have hfind := h.isend request
  unfold waitEntered akyCheckIsend akyCheck
  rw [hfind]
  cases (st.isends request).head? with
  | none => rfl
  | some mark =>
    by_cases hm : mark.toUInt32.toInt32 = 0
    · simp only [Option.map_some, hm, intMark]
      rfl
    · simp [hm, intMark]

/-- What `MPI_Wait` should record first: the mark of the send the variable holds. -/
def Proc.waitIn (st : Proc) (request : Ptr) : Record :=
  match st.held request with
  | .isend mark => rstEventL mpiWaitIn mark
  | _ => rstEvent mpiWaitIn

/-- **The table has the request that a variable holds**: the first `MPI_Isend` into it since
    it was last given to `MPI_Wait` has its mark, as an `int`; or there was none, and the
    variable holds no such request. -/
def Proc.Fresh (st : Proc) (request : Ptr) : Prop :=
  match st.held request with
  | .isend mark => (st.isends request).head?.map intMark = some mark
  | _ => st.isends request = []

/-- `MPI_Wait` is entered once. -/
theorem ofType_wait (tr : Library) (request : Ptr) (source : Int32) :
    ofType mpiWaitIn (mpiWait tr request source).1 = [waitEntered tr request] := by
  have hne : (rstEventI akyPtpRecv source.toUInt32).type ≠ mpiWaitIn :=
    show akyPtpRecv ≠ mpiWaitIn by decide +kernel
  have hne' : (rstEvent mpiWaitOut).type ≠ mpiWaitIn := by decide +kernel
  have hentered : (waitEntered tr request).type = mpiWaitIn := by
    unfold waitEntered
    split <;> rfl
  rw [mpiWait_eq, ofType, List.cons_append, List.filter_cons_of_pos (by simpa using hentered),
    List.filter_append, List.filter_cons_of_neg (by simpa using hne')]
  split
  · rw [List.filter_cons_of_neg (by simpa using hne)]
    rfl
  · rfl

/-- `MPI_Isend` is entered once, with the next mark. -/
theorem ofType_isend (tr : Library) (s : Sending) (request : Ptr) :
    ofType mpiIsendIn ((Op.sendCall s request .isend).run tr).1 =
      [rstEventIl mpiIsendIn s.bytes tr.sendMark] := by
  have hmessage : (s.message tr.sendMark).type ≠ mpiIsendIn :=
    show akyPtpSend ≠ mpiIsendIn by decide +kernel
  have hout : (rstEvent mpiIsendOut).type ≠ mpiIsendIn := by decide +kernel
  show List.filter _ [rstEventIl mpiIsendIn s.bytes tr.sendMark, s.message tr.sendMark,
    rstEvent mpiIsendOut] = _
  rw [List.filter_cons_of_pos (by simp [rstEventIl]),
    List.filter_cons_of_neg (by simpa using hmessage), List.filter_cons_of_neg (by simpa using hout)]
  rfl

/-- **A wait reports the mark it should just when the table is right.** -/
theorem waitIn_iff {st : Proc} {tr : Library} (h : Agrees st tr) (request : Ptr) :
    waitEntered tr request = st.waitIn request ↔ st.Fresh request := by
  have hplain : ∀ m, rstEventL mpiWaitIn m ≠ rstEvent mpiWaitIn := by simp [rstEventL, rstEvent]
  rw [waitEntered_eq h, Proc.waitIn, Proc.Fresh]
  cases hheld : st.held request with
  | isend mark =>
    cases (st.isends request).head? with
    | none => simp [(hplain mark).symm]
    | some mark' => simp [rstEventL]
  | null | receive | other =>
    cases hm : st.isends request with
    | nil => simp
    | cons mark' marks => simp [hplain]

/-! ## The marks of a run -/

/-- The marks of the sends into a variable are in order, and the last is that of the request
    the variable holds, if it holds one. -/
structure Proc.InOrder (st : Proc) : Prop where
  below : ∀ p, ∀ mark ∈ st.isends p, mark.toNat < st.sends.toNat
  sorted : ∀ p, (st.isends p).Pairwise fun mark mark' => mark.toNat < mark'.toNat
  last : ∀ p mark, st.held p = .isend mark → (st.isends p).getLast? = some mark

theorem inOrder_init : Proc.init.InOrder :=
  ⟨fun p mark h => absurd h (by simp [Proc.init]), fun p => List.Pairwise.nil,
    fun p mark h => absurd h (by simp [Proc.init])⟩

/-- A step that puts no `MPI_Isend` into a variable. -/
theorem inOrder_keeps {st st' : Proc} (h : st.InOrder) (hi : st'.isends = st.isends)
    (hs : st.sends.toNat ≤ st'.sends.toNat)
    (hh : ∀ p mark, st'.held p = .isend mark → st.held p = .isend mark) : st'.InOrder := by
  refine ⟨?_, ?_, ?_⟩
  · intro p mark hm
    rw [hi] at hm
    exact lt_of_lt_of_le (h.below p mark hm) hs
  · intro p
    rw [hi]
    exact h.sorted p
  · intro p mark hp
    rw [hi]
    exact h.last p mark (hh p mark hp)

theorem held_of_post {st : Proc} {request p : Ptr} {v : Held} {mark : UInt64}
    (hv : ∀ mark, v ≠ .isend mark) (h : (st.post request v).held p = .isend mark) :
    st.held p = .isend mark := by
  by_cases hp : p = request
  · subst hp
    simp only [Proc.post, Function.update_self] at h
    exact absurd h (hv mark)
  · simpa [Proc.post, hp] using h

theorem held_of_complete {st : Proc} (requests : List Ptr) {p : Ptr} {mark : UInt64}
    (h : (st.complete requests).held p = .isend mark) :
    st.held p = .isend mark ∧ p ∉ requests := by
  by_cases hp : p ∈ requests
  · simp [Proc.complete, hp] at h
  · exact ⟨by simpa [Proc.complete, hp] using h, hp⟩

theorem held_of_start {started : List Started} {st : Proc} {p : Ptr} {mark : UInt64}
    (h : (started.foldl Proc.start st).held p = .isend mark) : st.held p = .isend mark := by
  induction started generalizing st with
  | nil => exact h
  | cons s started ih =>
    have hrest := ih h
    cases s with
    | send dest request => exact held_of_post (by simp) hrest
    | receive source request => exact held_of_post (by simp) hrest

/-- **Marks stay in order**, as long as their counter does not come round. -/
theorem inOrder_step {mpi : Mpi} {st : Proc} (h : st.InOrder) (hs : st.sends.toNat + 1 < 2 ^ 64)
    (op : Op) : (op.step mpi st).InOrder := by
  have hnext : st.sends.toNat < (st.sends + 1).toNat := by
    rw [UInt64.toNat_add]
    show st.sends.toNat < (st.sends.toNat + 1) % 2 ^ 64
    omega
  cases op with
  | send kind s request =>
    cases kind with
    | isend =>
      have hi : ∀ p, ((Op.send .isend s request).step mpi st).isends p =
          if p = request then st.isends p ++ [st.sends] else st.isends p := by
        intro p
        by_cases hp : p = request
        · subst hp
          simp [Op.step]
        · simp [Op.step, Proc.post, hp]
      refine ⟨?_, ?_, ?_⟩
      · intro p mark hm
        rw [hi] at hm
        show mark.toNat < (st.sends + 1).toNat
        split at hm
        · rcases List.mem_append.mp hm with hm | hm
          · exact lt_trans (h.below p mark hm) hnext
          · rw [List.mem_singleton.mp hm]
            exact hnext
        · exact lt_trans (h.below p mark hm) hnext
      · intro p
        rw [hi]
        split
        · rw [List.pairwise_append]
          refine ⟨h.sorted p, List.pairwise_singleton _ _, ?_⟩
          intro m hm m' hm'
          rw [List.mem_singleton.mp hm']
          exact h.below p m hm
        · exact h.sorted p
      · intro p mark hp
        rw [hi]
        split
        · next heq =>
          subst heq
          simp only [Op.step, Proc.post, Function.update_self, Held.isend.injEq] at hp
          rw [List.getLast?_concat, hp]
        · next hne => exact h.last p mark (by simpa [Op.step, Proc.post, hne] using hp)
    | ibsend | irsend | issend =>
      exact inOrder_keeps h rfl (le_of_lt hnext) fun p mark => held_of_post (by simp)
    | bsend | rsend | send | ssend => exact inOrder_keeps h rfl (le_of_lt hnext) fun p mark hp => hp
  | recv comm count tsize source => exact inOrder_keeps h rfl le_rfl fun p mark hp => hp
  | irecv count tsize source request =>
    exact inOrder_keeps h rfl le_rfl fun p mark => held_of_post (by simp)
  | exchange kind dest source => exact inOrder_keeps h rfl le_rfl fun p mark hp => hp
  | start kind started =>
    obtain ⟨_, hi, hs⟩ := start_keeps started st
    exact inOrder_keeps h hi (le_of_eq (congrArg UInt64.toNat hs.symm)) fun p mark => held_of_start
  | wait request blank =>
    have hi : ∀ p, ((Op.wait request blank).step mpi st).isends p =
        if p = request then [] else st.isends p := by
      intro p
      by_cases hp : p = request
      · subst hp
        simp [Op.step]
      · simp [Op.step, hp]
    refine ⟨?_, ?_, ?_⟩
    · intro p mark hm
      rw [hi] at hm
      split at hm
      · exact absurd hm (by simp)
      · exact h.below p mark hm
    · intro p
      rw [hi]
      split
      · exact List.Pairwise.nil
      · exact h.sorted p
    · intro p mark hp
      obtain ⟨hp, hne⟩ := held_of_complete [request] hp
      rw [hi, if_neg (by simpa using hne)]
      exact h.last p mark hp
  | waitall base count blank =>
    exact inOrder_keeps h rfl le_rfl fun p mark hp => (held_of_complete (arrayOf base count) hp).1
  | waitany base index blank =>
    exact inOrder_keeps h rfl le_rfl fun p mark hp => (held_of_complete [base + index.toInt] hp).1
  | waitanyUndefined base =>
    exact inOrder_keeps h rfl le_rfl fun p mark hp => (held_of_complete [] hp).1
  | test kind completed =>
    exact inOrder_keeps h rfl le_rfl fun p mark hp => (held_of_complete completed.dedup hp).1

/-- At most one mark is given out in a step. -/
theorem sends_step {mpi : Mpi} {st : Proc} (op : Op) :
    (op.step mpi st).sends.toNat ≤ st.sends.toNat + 1 := by
  have hnext : (st.sends + 1).toNat ≤ st.sends.toNat + 1 := by
    rw [UInt64.toNat_add]
    exact Nat.mod_le _ _
  cases op with
  | send kind s request => cases kind <;> exact hnext
  | start kind started =>
    have hsends : ((Op.start kind started).step mpi st).sends = st.sends :=
      (start_keeps started st).2.2
    rw [hsends]
    exact Nat.le_succ _
  | _ => exact Nat.le_succ _

theorem inOrder_run {mpi : Mpi} {ops : List Op} {st : Proc} {tr : Library} (h : st.InOrder)
    (hs : st.sends.toNat + ops.length ≤ 2 ^ 31) :
    ∀ s ∈ run mpi st tr ops, s.before.InOrder ∧ s.before.sends.toNat < 2 ^ 31 := by
  induction ops generalizing st tr with
  | nil => exact fun s hs => absurd hs (by simp [run])
  | cons op ops ih =>
    rw [List.length_cons] at hs
    have hlt : st.sends.toNat + 1 < 2 ^ 64 := by omega
    have hle : (op.step mpi st).sends.toNat ≤ st.sends.toNat + 1 := sends_step op
    intro s hmem
    rcases List.mem_cons.mp hmem with rfl | hmem
    · exact ⟨h, show st.sends.toNat < 2 ^ 31 by omega⟩
    · exact ih (inOrder_step h hlt op) (by omega) s hmem

/-- **As long as marks are small, the table is right when it is simple**: the only `MPI_Isend`
    into the variable since it was last given to `MPI_Wait` is the one whose request it
    holds. -/
theorem fresh_iff {st : Proc} (h : st.InOrder) (hs : st.sends.toNat < 2 ^ 31) (request : Ptr) :
    st.Fresh request ↔ st.isends request =
      (match st.held request with
        | .isend mark => [mark]
        | _ => []) := by
  unfold Proc.Fresh
  cases hheld : st.held request with
  | null | receive | other => rfl
  | isend mark =>
    have hlast := h.last request mark hheld
    have hsorted := h.sorted request
    have hbelow := h.below request
    simp only
    generalize st.isends request = marks at hlast hsorted hbelow
    cases marks with
    | nil => simp
    | cons first marks =>
      have hfirst : intMark first = first := intMark_of_lt
        (Nat.lt_trans (hbelow first (by simp)) hs)
      rw [List.head?_cons, Option.map_some, hfirst, Option.some.injEq]
      constructor
      · rintro rfl
        -- the first mark is also the last, and marks grow
        cases marks with
        | nil => rfl
        | cons second marks =>
          rw [List.getLast?_cons_cons] at hlast
          have hlt := (List.pairwise_cons.mp hsorted).1 first (List.mem_of_getLast? hlast)
          exact absurd hlt (Nat.lt_irrefl _)
      · exact fun heq => (List.cons.inj heq).1

/-! ## Runs -/

/-- **Waits and marks.** An `MPI_Isend` is entered with the mark its request is given; an
    `MPI_Wait` is entered with the mark of the request it waits for, or without one if it waits
    for no such request, just when the table is right; and in a run of at most 2^31 calls that
    is when nothing was put into the variable by `MPI_Isend` since it was last given to
    `MPI_Wait` but the request it holds. -/
theorem history_marks (mpi : Mpi) (ops : List Op) : ∀ s ∈ history mpi ops,
    (∀ sending request, s.op = .send .isend sending request →
      ofType mpiIsendIn s.records = [rstEventIl mpiIsendIn sending.bytes s.before.sends] ∧
        (s.op.step mpi s.before).held request = .isend s.before.sends) ∧
    ∀ request blank, s.op = .wait request blank →
      (ofType mpiWaitIn s.records = [s.before.waitIn request] ↔ s.before.Fresh request) ∧
      (ops.length ≤ 2 ^ 31 → (s.before.Fresh request ↔ s.before.isends request =
        (match s.before.held request with
          | .isend mark => [mark]
          | _ => []))) := by
  intro s hs
  obtain ⟨tr, hagrees, hrecords⟩ := run_call agrees_init s hs
  refine ⟨fun sending request hop => ?_, fun request blank hop => ⟨?_, fun hlen => ?_⟩⟩
  · rw [hrecords, hop]
    refine ⟨?_, by simp [Op.step, Proc.post]⟩
    rw [← hagrees.sends]
    exact ofType_isend tr sending request
  · rw [hrecords, hop, Op.call, Call.run, ofType_wait, List.singleton_inj]
    exact waitIn_iff hagrees request
  · obtain ⟨hinOrder, hsends⟩ := inOrder_run inOrder_init (by simpa [Proc.init] using hlen) s hs
    exact fresh_iff hinOrder hsends request

/-- An integer for rank 1. -/
def toOne : Sending := { comm := worldComm 2 0, dest := 1, count := 1, tsize := 4 }

/-- A send that is waited for. -/
def isendWait : List Op := [.send .isend toOne 0, .wait 0 fun _ => 0]

theorem history_marks_isendWait :
    ∃ s ∈ history mpich isendWait, ofType mpiWaitIn s.records = [rstEventL mpiWaitIn 0] := by
  have hlen : 1 < (history mpich isendWait).length := by
    rw [length_history]
    decide
  have hmark := (history_marks mpich isendWait _ (List.getElem_mem hlen)).2 0 (fun _ => 0) rfl
  refine ⟨_, List.getElem_mem hlen, hmark.1.mpr ?_⟩
  show ([0].head?.map intMark) = some (0 : UInt64)
  decide +kernel

/-- A send that a test completes, and another send from the same variable. -/
def isendTestIsendWait : List Op :=
  [.send .isend toOne 0, .test .test [0], .send .isend toOne 0, .wait 0 fun _ => 0]

/-- The wait for the second send reports the mark of the first. -/
theorem not_history_marks : ¬ ∀ s ∈ history mpich isendTestIsendWait,
    ∀ request blank, s.op = .wait request blank →
      ofType mpiWaitIn s.records = [s.before.waitIn request] := by
  intro h
  have hlen : 3 < (history mpich isendTestIsendWait).length := by
    rw [length_history]
    decide
  have hmark := h _ (List.getElem_mem hlen) 0 (fun _ => 0) rfl
  revert hlen
  decide +kernel

end System
end Akypuera

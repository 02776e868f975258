import Akypuera.Tau.Handlers

/-!
# The reading loop of tau2paje (`tau2paje.c`)

`main` asks the reader for the next 100 records until an `EndTrace` was seen, or until the reader
answers with a negative number. The reader is taken to deliver the next at most 100 records in the
order of the file, and to answer with how many those were: 0 at the end, which is **not negative**.
So the loop ends with the batch of the first `EndTrace`, whichever node it is for and whatever comes
after; without one it does not end (`readLoop_eq`).
-/

set_option autoImplicit false

namespace Akypuera
namespace Tau

open CText Search Keys

/-- `Ttf_ReadNumEvents (fh, cb, n)`: the callbacks that are made, what is left of the file, and
    the number of records read. -/
def readNumEvents (args : Arguments) (n : Nat) (st : State) (file : List Callback) :
    Run × List Callback × Int :=
  (run args st (file.take n), file.drop n, (file.take n).length)

/-- What the loop leaves: the records that were delivered, and how the process was ended, if it
    was. -/
structure Reading where
  delivered : List Callback
  state : State
  stop : Option Stop

/-- `do recs_read = Ttf_ReadNumEvents (fh, cb, 100); while (recs_read >= 0 && !EndOfTrace)`.
    Without enough fuel there is no answer. -/
def readLoop (args : Arguments) : Nat → State → List Callback → Option Reading
  | 0, _, _ => none
  | fuel + 1, st, file =>
      let (batch, rest, recsRead) := readNumEvents args 100 st file
      let delivered := batch.rounds.map Prod.fst
      if batch.stop.isSome then some { delivered, state := batch.state, stop := batch.stop }
      else if recsRead ≥ 0 ∧ ¬ batch.state.endOfTrace then
        (readLoop args fuel batch.state rest).map fun r =>
          { r with delivered := delivered ++ r.delivered }
      else some { delivered, state := batch.state, stop := none }

/-- **The whole file is read, and the loop ends.** -/
def ReadsAll (args : Arguments) (resolution : ℚ) (file : List Callback) : Prop :=
  ∃ fuel r, readLoop args fuel (State.init resolution) file = some r ∧ r.stop = none ∧
    r.delivered = file

def Callback.isEndTrace : Callback → Bool
  | endTrace _ _ => true
  | _ => false

/-! ## Runs, part by part -/

variable {args : Arguments}

theorem run_append {st : State} {cs : List Callback} (h : (run args st cs).stop = none)
    (cs' : List Callback) :
    run args st (cs ++ cs') =
      { run args (run args st cs).state cs' with
        rounds := (run args st cs).rounds ++ (run args (run args st cs).state cs').rounds } := by
  induction cs generalizing st with
  | nil => rfl
  | cons c cs ih =>
    cases hcall : c.call args st with
    | error stop => exact absurd h (by simp [run, hcall])
    | ok done =>
      simp only [run, hcall] at h
      simp only [List.cons_append, run, hcall, ih h]

theorem run_stop_of_append {st : State} {cs cs' : List Callback}
    (h : (run args st (cs ++ cs')).stop = none) : (run args st cs).stop = none := by
  induction cs generalizing st with
  | nil => rfl
  | cons c cs ih =>
    rw [List.cons_append, run] at h
    rw [run]
    cases hcall : c.call args st with
    | error stop => simp [hcall] at h
    | ok done =>
      simp only [hcall] at h
      exact ih h

/-- A run that is not stopped makes every callback. -/
theorem map_fst_rounds {st : State} {cs : List Callback} (h : (run args st cs).stop = none) :
    (run args st cs).rounds.map Prod.fst = cs := by
  induction cs generalizing st with
  | nil => rfl
  | cons c cs ih =>
    cases hcall : c.call args st with
    | error stop => exact absurd h (by simp [run, hcall])
    | ok done =>
      simp only [run, hcall] at h ⊢
      exact congrArg (c :: ·) (ih h)

theorem touch_endOfTrace {st st' : State} {nodeid : UInt32} {time : ℚ}
    (h : st.touch nodeid time = .ok st') : st'.endOfTrace = st.endOfTrace := by
  rw [StateOf.touch] at h
  split at h
  · cases h; rfl
  · cases h

theorem exists_of_bind {α β : Type} {x : Except Stop α} {f : α → Except Stop β} {b : β}
    (h : x >>= f = .ok b) : ∃ a, x = .ok a ∧ f a = .ok b := by
  cases x with
  | error stop => cases h
  | ok a => exact ⟨a, rfl, h⟩

/-- Only `EndTrace` sets the flag. -/
theorem call_endOfTrace {st : State} {c : Callback} {done : Done}
    (h : c.call args st = .ok done) :
    done.state.endOfTrace = (c.isEndTrace || st.endOfTrace) := by
  cases c with
  | clockPeriod _ | defStateGroup _ _ | defState _ _ _ | defUserEvent _ _ _ => cases h; rfl
  | defThread nodeid _ _ =>
    simp only [Callback.call, defThread] at h
    split at h
    · cases h; rfl
    · cases h
  | endTrace nodeid _ =>
    simp only [Callback.call, endTrace] at h
    split at h
    · cases h; rfl
    · split at h
      · cases h; rfl
      · cases h
  | enterState time nodeid _ stateid =>
    simp only [Callback.call, enterState] at h
    split at h
    · cases h; rfl
    · obtain ⟨st', htouch, hdone⟩ := exists_of_bind h
      cases hdone
      have hflag := touch_endOfTrace htouch
      exact hflag
  | leaveState time nodeid _ stateid =>
    simp only [Callback.call, leaveState] at h
    split at h
    · cases h; rfl
    · obtain ⟨st', htouch, hdone⟩ := exists_of_bind h
      cases hdone
      have hflag := touch_endOfTrace htouch
      exact hflag
  | eventTrigger time nodeToken _ _ _ =>
    obtain ⟨st', htouch, hdone⟩ := exists_of_bind h
    cases hdone
    have hflag := touch_endOfTrace htouch
    exact hflag
  | sendMessage time source _ destination _ size tag _ =>
    simp only [Callback.call, sendMessage] at h
    split at h
    · cases h; rfl
    · obtain ⟨st', hsource, h⟩ := exists_of_bind h
      obtain ⟨st'', hdestination, hdone⟩ := exists_of_bind h
      have hfirst := touch_endOfTrace hsource
      cases hdone
      exact (touch_endOfTrace hdestination).trans hfirst
  | recvMessage time source _ destination _ _ _ _ =>
    simp only [Callback.call, recvMessage] at h
    split at h
    · cases h; rfl
    · split at h
      · obtain ⟨st', hsource, h⟩ := exists_of_bind h
        obtain ⟨st'', hdestination, hdone⟩ := exists_of_bind h
        have hfirst := touch_endOfTrace hsource
        cases hdone
        exact (touch_endOfTrace hdestination).trans hfirst
      · split at h
        · cases h; rfl
        · cases h

/-- The flag after a run. -/
theorem run_endOfTrace {st : State} {cs : List Callback} (h : (run args st cs).stop = none) :
    (run args st cs).state.endOfTrace = (cs.any Callback.isEndTrace || st.endOfTrace) := by
  induction cs generalizing st with
  | nil => rfl
  | cons c cs ih =>
    cases hcall : c.call args st with
    | error stop => exact absurd h (by simp [run, hcall])
    | ok done =>
      simp only [run, hcall] at h ⊢
      rw [ih h, call_endOfTrace hcall, List.any_cons, Bool.or_left_comm, Bool.or_assoc]

/-! ## The loop -/

/-- The place of the first `EndTrace`. -/
def firstEnd (file : List Callback) : Nat := file.findIdx Callback.isEndTrace

theorem firstEnd_lt_length {file : List Callback} :
    firstEnd file < file.length ↔ file.any Callback.isEndTrace = true := by
  rw [firstEnd, List.findIdx_lt_length, List.any_eq_true]

theorem firstEnd_append (batch rest : List Callback) :
    firstEnd (batch ++ rest) =
      if batch.any Callback.isEndTrace then firstEnd batch else firstEnd rest + batch.length := by
  have hhere := @firstEnd_lt_length batch
  refine List.findIdx_append.trans ?_
  change (if firstEnd batch < batch.length then firstEnd batch else firstEnd rest + batch.length) = _
  cases hany : batch.any Callback.isEndTrace with
  | true => rw [if_pos (hhere.mpr hany), if_pos rfl]
  | false =>
    rw [hany] at hhere
    rw [if_neg fun hlt => Bool.false_ne_true (hhere.mp hlt), if_neg Bool.false_ne_true]

theorem readLoop_succ (fuel : Nat) (st : State) (file : List Callback) :
    readLoop args (fuel + 1) st file =
      if (run args st (file.take 100)).stop.isSome then
        some { delivered := (run args st (file.take 100)).rounds.map Prod.fst
               state := (run args st (file.take 100)).state
               stop := (run args st (file.take 100)).stop }
      else if ((file.take 100).length : Int) ≥ 0 ∧
          ¬ (run args st (file.take 100)).state.endOfTrace then
        (readLoop args fuel (run args st (file.take 100)).state (file.drop 100)).map fun r =>
          { r with delivered := (run args st (file.take 100)).rounds.map Prod.fst ++ r.delivered }
      else
        some { delivered := (run args st (file.take 100)).rounds.map Prod.fst
               state := (run args st (file.take 100)).state
               stop := none } := rfl

/-- **The loop ends with the batch of the first `EndTrace`**, if there is one. -/
theorem readLoop_eq {fuel : Nat} {st : State} {file : List Callback}
    (hstop : (run args st file).stop = none) (hend : st.endOfTrace = false) :
    (readLoop args fuel st file).map (fun r => (r.delivered, r.stop)) =
      if firstEnd file < file.length ∧ firstEnd file / 100 < fuel then
        some (file.take (100 * (firstEnd file / 100 + 1)), none)
      else none := by
  induction fuel generalizing st file with
  | zero => simp [readLoop]
  | succ fuel ih =>
    obtain ⟨batch, rest, hfile, hbatch, hrest⟩ : ∃ batch rest, file = batch ++ rest ∧
        file.take 100 = batch ∧ file.drop 100 = rest :=
      ⟨_, _, (List.take_append_drop 100 file).symm, rfl, rfl⟩
    have hlen : batch.length = min 100 file.length := by rw [← hbatch, List.length_take]
    have hfirst := firstEnd_append batch rest
    rw [← hfile] at hfirst
    rw [hfile] at hstop
    have hdone := run_stop_of_append hstop
    rw [run_append hdone] at hstop
    have hflag := run_endOfTrace hdone
    rw [hend, Bool.or_false] at hflag
    have hread : ¬ (run args st batch).stop.isSome := by simp [hdone]
    rw [readLoop_succ, hbatch, hrest, if_neg hread, map_fst_rounds hdone]
    cases hany : batch.any Callback.isEndTrace with
    | true =>
      have hhere := firstEnd_lt_length.mpr hany
      rw [hany] at hflag
      rw [hany, if_pos rfl] at hfirst
      rw [if_neg (by simp [hflag]), hfirst, Nat.div_eq_of_lt (by omega), if_pos (by omega), ← hbatch]
      rfl
    | false =>
      rw [hany] at hflag
      rw [hany, if_neg Bool.false_ne_true] at hfirst
      have hnext := ih hstop hflag
      rw [if_pos ⟨Int.natCast_nonneg _, by simp [hflag]⟩, Option.map_map]
      have hsplit : file.length = batch.length + rest.length := by rw [hfile, List.length_append]
      by_cases hfull : batch.length = 100
      · -- a full batch, and what comes after it decides
        have hmore : ∀ r : Option Reading, r.map ((fun r => (r.delivered, r.stop)) ∘ fun r =>
            { r with delivered := batch ++ r.delivered }) =
            (r.map fun r => (r.delivered, r.stop)).map fun x => (batch ++ x.1, x.2) := by
          intro r
          rw [Option.map_map]
          rfl
        rw [hmore, hnext, hfirst, hfull, Nat.add_div_right _ (by decide), hsplit]
        by_cases hlater : firstEnd rest < rest.length ∧ firstEnd rest / 100 < fuel
        · rw [if_pos hlater, if_pos ⟨by omega, by omega⟩, hfile,
            show 100 * ((firstEnd rest / 100).succ + 1) =
              batch.length + 100 * (firstEnd rest / 100 + 1) by omega, List.take_length_add_append]
          rfl
        · rw [if_neg hlater, if_neg (fun h => hlater ⟨by omega, by omega⟩)]
          rfl
      · -- the reader answers 0 from now on
        have hempty : rest = [] := by
          rw [← hrest]
          exact List.drop_eq_nil_of_le (by omega)
        rw [hempty, show firstEnd [] = 0 from rfl] at hnext hfirst
        rw [if_neg (by simp)] at hnext
        rw [hempty, Option.map_eq_none_iff.mp hnext, if_neg]
        · rfl
        · rw [hempty, List.length_nil] at hsplit
          omega

/-- What was delivered and how it ended are those of a run over a part of the file. -/
theorem readLoop_run {fuel : Nat} {st : State} {file : List Callback} {r : Reading}
    (h : readLoop args fuel st file = some r) (hstop : r.stop = none) :
    ∃ part, part <+: file ∧ r.delivered = part ∧ (run args st part).stop = none := by
  induction fuel generalizing st file r with
  | zero => exact absurd h (by simp [readLoop])
  | succ fuel ih =>
    rw [readLoop_succ] at h
    split at h
    · next hread =>
      cases h
      have hnone : (run args st (file.take 100)).stop = none := hstop
      exact absurd hread (by simp [hnone])
    · next hread =>
      have hdone : (run args st (file.take 100)).stop = none := by simpa using hread
      split at h
      · obtain ⟨r', hr', rfl⟩ := Option.map_eq_some_iff.mp h
        obtain ⟨part, hpart, hdelivered, hrun⟩ := ih hr' hstop
        refine ⟨file.take 100 ++ part, ?_, ?_, ?_⟩
        · have hall := List.prefix_append_right_inj (file.take 100) |>.mpr hpart
          rwa [List.take_append_drop] at hall
        · rw [map_fst_rounds hdone, hdelivered]
        · rw [run_append hdone]
          exact hrun
      · cases h
        exact ⟨file.take 100, List.take_prefix .., map_fst_rounds hdone, hdone⟩

/-- The last batch of the file holds an `EndTrace`, and no batch before it does. -/
def EndsLast (file : List Callback) : Prop :=
  (file.drop (100 * ((file.length - 1) / 100))).any Callback.isEndTrace = true ∧
    (file.take (100 * ((file.length - 1) / 100))).any Callback.isEndTrace = false

instance (file : List Callback) : Decidable (EndsLast file) :=
  inferInstanceAs (Decidable (_ ∧ _))

theorem endsLast_iff (file : List Callback) :
    EndsLast file ↔
      firstEnd file < file.length ∧ file.length ≤ 100 * (firstEnd file / 100 + 1) := by
  obtain ⟨n, hn⟩ : ∃ n, n = 100 * ((file.length - 1) / 100) := ⟨_, rfl⟩
  have hfirst := firstEnd_append (file.take n) (file.drop n)
  rw [List.take_append_drop] at hfirst
  have hearly := @firstEnd_lt_length (file.take n)
  have hlate := @firstEnd_lt_length (file.drop n)
  rw [List.length_take] at hearly hfirst
  rw [List.length_drop] at hlate
  rw [EndsLast, ← hn, ← hlate]
  cases hany : (file.take n).any Callback.isEndTrace with
  | true =>
    rw [hany] at hfirst hearly
    have hlt := hearly.mpr rfl
    rw [if_pos rfl] at hfirst
    refine ⟨fun h => absurd h.2 (by simp), fun ⟨_, hle⟩ => ?_⟩
    omega
  | false =>
    rw [hany, if_neg Bool.false_ne_true] at hfirst
    refine ⟨fun ⟨hlt, _⟩ => ?_, fun ⟨hlt, _⟩ => ⟨?_, rfl⟩⟩ <;> omega

/-- **Where tau2paje reads the whole file and stops**: no callback ends the process, and the first
    `EndTrace` is in the last batch. -/
theorem readsAll_iff (args : Arguments) (resolution : ℚ) (file : List Callback) :
    ReadsAll args resolution file ↔
      (run args (State.init resolution) file).stop = none ∧ EndsLast file := by
  rw [endsLast_iff]
  constructor
  · rintro ⟨fuel, r, hr, hstop, hall⟩
    obtain ⟨part, -, hpart, hrun⟩ := readLoop_run hr hstop
    rw [← hpart, hall] at hrun
    have heq := @readLoop_eq args fuel _ _ hrun rfl
    rw [hr, Option.map_some, hall, hstop] at heq
    split at heq
    · next hlt =>
      have htake : file = file.take (100 * (firstEnd file / 100 + 1)) :=
        congrArg Prod.fst (Option.some.inj heq)
      have hlen := congrArg List.length htake
      rw [List.length_take] at hlen
      exact ⟨hrun, hlt.1, by omega⟩
    · cases heq
  · rintro ⟨hrun, hlt, hle⟩
    have heq := @readLoop_eq args (firstEnd file / 100 + 1) _ _ hrun rfl
    rw [if_pos ⟨hlt, Nat.lt_succ_self _⟩, List.take_of_length_le hle] at heq
    obtain ⟨r, hr, hpair⟩ := Option.map_eq_some_iff.mp heq
    exact ⟨_, r, hr, congrArg Prod.snd hpair, congrArg Prod.fst hpair⟩

/-- A trace that was cut short after its first definition. -/
def cutShort : List Callback := [.defThread 0 0 "a".toList]

/-- Two nodes, the second of which ends 100 records after the first. -/
def endsEarly : List Callback :=
  [.defThread 0 0 "a".toList, .defThread 1 0 "b".toList, .endTrace 0 0] ++
    List.replicate 100 (.eventTrigger 1 1 0 0 0) ++ [.endTrace 1 0]

/-- **Without an `EndTrace` the loop does not end, and after one records are lost.** -/
theorem readLoop_not_all :
    (∀ fuel, readLoop plainly fuel (State.init 0) cutShort = none) ∧
      (∀ fuel r, readLoop plainly fuel (State.init 0) endsEarly = some r →
        r.stop = none ∧ r.delivered = endsEarly.take 100) ∧
      ¬ ReadsAll plainly 0 cutShort ∧ ¬ ReadsAll plainly 0 endsEarly := by
  have hcut : ∀ fuel, readLoop plainly fuel (State.init 0) cutShort = none := by
    intro fuel
    have hrun : (run plainly (State.init 0) cutShort).stop = none := by decide +kernel
    have heq := @readLoop_eq _ fuel _ _ hrun rfl
    rw [if_neg (fun h => absurd h.1 (by decide))] at heq
    exact Option.map_eq_none_iff.mp heq
  have hearly : ∀ fuel r, readLoop plainly fuel (State.init 0) endsEarly = some r →
      r.stop = none ∧ r.delivered = endsEarly.take 100 := by
    intro fuel r hr
    have hrun : (run plainly (State.init 0) endsEarly).stop = none := by decide +kernel
    have heq := @readLoop_eq _ fuel _ _ hrun rfl
    rw [hr, show firstEnd endsEarly = 2 by decide] at heq
    split at heq
    · exact ⟨congrArg Prod.snd (Option.some.inj heq), congrArg Prod.fst (Option.some.inj heq)⟩
    · cases heq
  refine ⟨hcut, hearly, ?_, ?_⟩
  · rintro ⟨fuel, r, hr, -⟩
    exact absurd ((hcut fuel).symm.trans hr) nofun
  · rintro ⟨fuel, r, hr, -, hall⟩
    have hlen := congrArg List.length (hall.symm.trans (hearly fuel r hr).2)
    exact absurd hlen (by decide)

end Tau
end Akypuera

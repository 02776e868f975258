import Akypuera.System.Communicators

/-!
# The balance of sends and receives

The converter pairs the sends a rank records for another with the receives the other records
from it, one by one, so it needs as many of the ones as of the others. MPI lets any send meet
any receive, but not every wrapper records what it does: `MPI_Sendrecv` and `MPI_Start` record
no send, `MPI_Sendrecv` and the tests record no receive, nor do the waits for a request that
was not put into its variable by `MPI_Irecv`.

For one call this is bookkeeping: what is sent is recorded or not (`sent_call`), and what is
received is recorded or not, besides what is recorded and not received (`received_call`). Over
whole runs, **the records balance just when, between any two ranks, what is not recorded on the
one side makes up for what is not recorded on the other** (`balanced_iff`).
-/

set_option autoImplicit false

namespace Akypuera
namespace System

open Code Converter Tracer

namespace Op

/-- The operations of rank `r`, all on `MPI_COMM_WORLD`. -/
def OnWorld (n r : Nat) : Op → Prop
  | .send _ s _ => s.comm = worldComm n r
  | .recv comm _ _ _ => comm = worldComm n r
  | _ => True

/-- The destinations of the messages that a call sends and records. -/
def told : Op → List Int32
  | .send _ s _ => [s.dest]
  | _ => []

/-- The destinations of the messages that a call sends without a record. -/
def silent : Op → List Int32
  | .exchange _ dest _ => dest.toList
  | .start _ started => started.filterMap fun
      | .send dest _ => dest
      | .receive _ _ => none
  | _ => []

/-- The destinations of the messages that a call sends. -/
def sent (op : Op) : List Int32 := op.told ++ op.silent

/-- The sources that a call records. -/
def heard (mpi : Mpi) (st : Proc) : Op → List Int32
  | .recv comm _ _ source => [akyTranslateRank comm (source.getD mpi.procNull)]
  | op => ((op.looks mpi st).filter fun x => st.noted x.1).map Prod.snd

/-- The waits that look at the requests they complete. -/
def waits : Op → Bool
  | .wait _ _ | .waitall _ _ _ | .waitany _ _ _ => true
  | _ => false

/-- The sources of the messages that a call receives without a record. -/
def missed (st : Proc) : Op → List Int32
  | .recv _ _ _ _ => []
  | .exchange _ _ source => source.toList
  | op => ((op.completes.filter fun p => ! (op.waits && st.noted p)).filterMap st.real).map Prod.snd

/-- The sources that a call records without having received a message. -/
def phantoms (mpi : Mpi) (st : Proc) : Op → List Int32
  | .recv comm _ _ source => if source = none then [akyTranslateRank comm mpi.procNull] else []
  | op => ((op.looks mpi st).filter fun x =>
      st.noted x.1 && ! (op.waits && (st.real x.1).isSome)).map Prod.snd

end Op

/-! ## One call -/

/-- The ranks named by the records of one type. -/
def peers (type : Nat) (rs : List Record) : List UInt32 :=
  (ofType type rs).filterMap fun r => r.u32.head?

theorem ofType_eq_nil {type : Nat} {rs : List Record} (h : ∀ r ∈ rs, r.type ≠ type) :
    ofType type rs = [] :=
  List.filter_eq_nil_iff.mpr fun r hr => by simpa using h r hr

theorem peers_recvs (xs : List (Ptr × Int32)) :
    peers akyPtpRecv (xs.map fun x => rstEventI akyPtpRecv x.2.toUInt32) =
      (xs.map Prod.snd).map Int32.toUInt32 := by
  rw [peers, ofType_recvs fun x : Ptr × Int32 => x.2.toUInt32, List.filterMap_map, List.map_map,
    ← List.filterMap_eq_map]
  rfl

section
variable {mpi : Mpi} {st : Proc} {n r : Nat}

/-- The destinations a call records. -/
theorem peers_send {op : Op} (hop : op.OnWorld n r) :
    peers akyPtpSend (op.messages mpi st) = op.told.map Int32.toUInt32 := by
  have hne : akyPtpRecv ≠ akyPtpSend := by decide +kernel
  have hnone : ∀ xs : List (Ptr × Int32),
      peers akyPtpSend (xs.map fun x => rstEventI akyPtpRecv x.2.toUInt32) = [] := by
    intro xs
    rw [peers, ofType_eq_nil fun r hr => ?_]
    · rfl
    · obtain ⟨x, _, rfl⟩ := List.mem_map.mp hr
      exact hne
  cases op with
  | send kind s request =>
    have hcomm : s.comm = worldComm n r := hop
    have htype : ofType akyPtpSend [s.message st.sends] = [s.message st.sends] :=
      List.filter_eq_self.mpr fun r hr => by rw [List.mem_singleton.mp hr]; rfl
    show peers akyPtpSend [s.message st.sends] = [s.dest.toUInt32]
    rw [peers, htype]
    show [(akyTranslateRank s.comm s.dest).toUInt32] = _
    rw [hcomm]
    rfl
  | recv comm count tsize source => exact hnone [(0, akyTranslateRank comm (source.getD mpi.procNull))]
  | _ => exact hnone _

/-- The sources a call records. -/
theorem peers_recv (op : Op) :
    peers akyPtpRecv (op.messages mpi st) = (op.heard mpi st).map Int32.toUInt32 := by
  cases op with
  | send kind s request =>
    have hne : akyPtpSend ≠ akyPtpRecv := by decide +kernel
    rw [peers, ofType_eq_nil fun r hr => ?_]
    · rfl
    · rw [List.mem_singleton.mp hr]
      exact hne
  | recv comm count tsize source =>
    exact peers_recvs [(0, akyTranslateRank comm (source.getD mpi.procNull))]
  | _ => exact peers_recvs _

/-- The requests a wait is given, sorted by whether they are noted and whether they hold a
    receive. -/
theorem count_looks (source : Ptr → Int32) (ps : List Ptr)
    (hsource : ∀ p ∈ ps, ∀ m, st.real p = some m → source p = m.2) (a : Int32) :
    ((ps.filter fun p => st.noted p).map source).count a +
        (((ps.filter fun p => ! st.noted p).filterMap st.real).map Prod.snd).count a =
      ((ps.filterMap st.real).map Prod.snd).count a +
        ((ps.filter fun p => st.noted p && ! (st.real p).isSome).map source).count a := by
  induction ps with
  | nil => rfl
  | cons p ps ih =>
    have ih := ih fun q hq => hsource q (by simp [hq])
    cases hn : st.noted p <;> cases hr : st.real p with
    | none => simp [hn, hr, List.count_cons] at ih ⊢; omega
    | some m =>
      have hm := hsource p (by simp) m hr
      simp [hn, hr, hm, List.count_cons] at ih ⊢
      omega

/-- **What a call records as received and what it does not record.** -/
theorem received_call {op : Op} (hop : op.OnWorld n r) (a : Int32) :
    (op.heard mpi st).count a + (op.missed st).count a =
      ((op.received st).map Prod.snd).count a + (op.phantoms mpi st).count a := by
  have hwait : ∀ (blank : Ptr → Int32) (ps : List Ptr),
      (((ps.map fun p => (p, st.source mpi blank p)).filter fun x => st.noted x.1).map
          Prod.snd).count a +
          (((ps.filter fun p => ! st.noted p).filterMap st.real).map Prod.snd).count a =
        ((ps.filterMap st.real).map Prod.snd).count a +
          (((ps.map fun p => (p, st.source mpi blank p)).filter fun x =>
            st.noted x.1 && ! (st.real x.1).isSome).map Prod.snd).count a := by
    intro blank ps
    rw [List.filter_map, List.filter_map, List.map_map, List.map_map]
    exact count_looks (st.source mpi blank) ps (fun p _ m hm => source_of_real hm) a
  cases op with
  | send kind s request => rfl
  | recv comm count tsize source =>
    have hcomm : comm = worldComm n r := hop
    subst hcomm
    cases source with
    | none => simp [Op.heard, Op.missed, Op.received, Op.phantoms]
    | some s => simp [Op.heard, Op.missed, Op.received, Op.phantoms, akyTranslateRank, worldComm]
  | irecv count tsize source request => rfl
  | exchange kind dest source =>
    cases source <;> simp [Op.heard, Op.missed, Op.received, Op.phantoms, Op.looks]
  | start kind started => rfl
  | wait request blank => exact hwait blank [request]
  | waitall base count blank => exact hwait blank (arrayOf base count)
  | waitany base index blank => exact hwait blank [base + index.toInt]
  | waitanyUndefined base =>
    simp [Op.heard, Op.missed, Op.received, Op.phantoms, Op.completes, Op.waits]
  | test kind completed =>
    simp [Op.heard, Op.missed, Op.received, Op.phantoms, Op.looks, Op.waits]

end

/-! ## Runs -/

/-- How often a rank is named over the calls of a run. -/
def total (f : Step → List Int32) (steps : List Step) (a : Int32) : Nat := (steps.flatMap f).count a

theorem total_add {f g h k : Step → List Int32} {steps : List Step} {a : Int32}
    (hstep : ∀ s ∈ steps, (f s).count a + (g s).count a = (h s).count a + (k s).count a) :
    total f steps a + total g steps a = total h steps a + total k steps a := by
  unfold total
  induction steps with
  | nil => rfl
  | cons s steps ih =>
    have hs := hstep s (by simp)
    have ih := ih fun s' hs' => hstep s' (by simp [hs'])
    simp only [List.flatMap_cons, List.count_append]
    omega

theorem toUInt32_injective : Function.Injective Int32.toUInt32 :=
  fun _ _ h => congrArg Int32.ofUInt32 h

theorem sent_call (steps : List Step) (a : Int32) :
    total (fun x => x.op.sent) steps a =
      total (fun x => x.op.told) steps a + total (fun x => x.op.silent) steps a := by
  unfold total
  induction steps with
  | nil => rfl
  | cons s steps ih =>
    simp only [List.flatMap_cons, List.count_append, Op.sent] at ih ⊢
    omega

/-- How many records of one type name rank `r`. -/
def recorded (type : Nat) (steps : List Step) (r : Nat) : Nat :=
  (steps.flatMap fun s => peers type s.records).count (Int32.ofNat r).toUInt32

/-- The records of a run, in terms of its operations. -/
theorem recorded_eq {mpi : Mpi} {ops : List Op} {type : Nat} (hlink : (arm type).isLink = true)
    {f : Step → List Int32} (hf : ∀ s ∈ history mpi ops,
      peers type (s.op.messages mpi s.before) = (f s).map Int32.toUInt32) (r : Nat) :
    recorded type (history mpi ops) r = total f (history mpi ops) (.ofNat r) := by
  have hpeers : ∀ s ∈ history mpi ops, peers type s.records = (f s).map Int32.toUInt32 := by
    intro s hs
    rw [← hf s hs, ← run_messages agrees_init s hs, peers, peers, ofType_linkRecords hlink]
  rw [recorded, total, List.flatMap_congr hpeers, ← List.map_flatMap,
    List.count_map_of_injective _ _ toUInt32_injective]

/-- **The balance.** In a run of any processes on `MPI_COMM_WORLD` in which the messages that
    rank `s` sends rank `d` are received, `s` records as many sends for `d` as `d` records
    receives from `s` just when the messages that `d` receives without a record are as many as
    those that `s` sends without a record and the records of `d` that are for no message. -/
theorem balanced_iff (n : Nat) (mpi : Mpi) (ops : Nat → List Op)
    (hops : ∀ r < n, ∀ op ∈ ops r, op.OnWorld n r)
    (hreceived : ∀ s < n, ∀ d < n,
      total (fun x => x.op.sent) (history mpi (ops s)) (.ofNat d) =
        total (fun x => (x.op.received x.before).map Prod.snd) (history mpi (ops d)) (.ofNat s)) :
    ∀ s < n, ∀ d < n,
      (recorded akyPtpSend (history mpi (ops s)) d = recorded akyPtpRecv (history mpi (ops d)) s ↔
        total (fun x => x.op.missed x.before) (history mpi (ops d)) (.ofNat s) =
          total (fun x => x.op.silent) (history mpi (ops s)) (.ofNat d) +
            total (fun x => x.op.phantoms mpi x.before) (history mpi (ops d)) (.ofNat s)) := by
  intro s hs d hd
  have hsend : recorded akyPtpSend (history mpi (ops s)) d =
      total (fun x => x.op.told) (history mpi (ops s)) (.ofNat d) :=
    recorded_eq (arm_message akyPtpSend (by simp))
      (fun x hx => peers_send (hops s hs x.op (op_mem_of_run x hx))) d
  have hrecv : recorded akyPtpRecv (history mpi (ops d)) s =
      total (fun x => x.op.heard mpi x.before) (history mpi (ops d)) (.ofNat s) :=
    recorded_eq (arm_message akyPtpRecv (by simp)) (fun x _ => peers_recv x.op) s
  have hsent : total (fun x => x.op.sent) (history mpi (ops s)) (.ofNat d) =
      total (fun x => x.op.told) (history mpi (ops s)) (.ofNat d) +
        total (fun x => x.op.silent) (history mpi (ops s)) (.ofNat d) :=
    sent_call _ _
  have hcall : total (fun x => x.op.heard mpi x.before) (history mpi (ops d)) (.ofNat s) +
        total (fun x => x.op.missed x.before) (history mpi (ops d)) (.ofNat s) =
      total (fun x => (x.op.received x.before).map Prod.snd) (history mpi (ops d)) (.ofNat s) +
        total (fun x => x.op.phantoms mpi x.before) (history mpi (ops d)) (.ofNat s) :=
    total_add fun x hx => received_call (hops d hd x.op (op_mem_of_run x hx)) _
  have hall := hreceived s hs d hd
  rw [hsend, hrecv]
  omega

/-- Rank 0 sends to rank 1, which receives. -/
def sendRecv : Nat → List Op
  | 0 => [.send .send { comm := worldComm 2 0, dest := 1, count := 1, tsize := 4 } 0]
  | _ => [.recv (worldComm 2 1) 1 4 (some 0)]

theorem balanced_iff_sendRecv :
    recorded akyPtpSend (history mpich (sendRecv 0)) 1 =
      recorded akyPtpRecv (history mpich (sendRecv 1)) 0 := by
  refine (balanced_iff 2 mpich sendRecv ?_ (by decide +kernel) 0 (by decide) 1 (by decide)).mpr
    (by decide +kernel)
  intro r hr op hop
  interval_cases r
  · rw [List.mem_singleton.mp hop]
    rfl
  · rw [List.mem_singleton.mp hop]
    rfl

/-- Rank 0 exchanges messages with rank 1, which sends and receives. -/
def exchanged : Nat → List Op
  | 0 => [.exchange .sendrecv (some 1) (some 1)]
  | _ => [.send .send { comm := worldComm 2 1, dest := 0, count := 1, tsize := 4 } 0,
      .recv (worldComm 2 1) 1 4 (some 0)]

/-- Everything is received, and neither side of the exchange is recorded. -/
theorem not_balanced :
    (∀ s < 2, ∀ d < 2, total (fun x => x.op.sent) (history mpich (exchanged s)) (.ofNat d) =
      total (fun x => (x.op.received x.before).map Prod.snd) (history mpich (exchanged d))
        (.ofNat s)) ∧
      recorded akyPtpSend (history mpich (exchanged 1)) 0 = 1 ∧
      recorded akyPtpRecv (history mpich (exchanged 0)) 1 = 0 := by
  decide +kernel

end System
end Akypuera

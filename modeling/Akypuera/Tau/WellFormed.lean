import Akypuera.Tau.Step

/-!
# Containers and states of a TAU trace

What the trace of a run has to be for the threads to be told apart in it (`WellFormed`): every node's
container lives once and around its events, its times are in order, and each `PopState` closes the
`PushState` of the thread that enters the state it leaves.

**The callbacks drop the thread number**, so a second thread on a node creates its container again,
destroys it again and shares its stack of states: `Tame` sequences are well formed, and no sequence
with two threads on a node is.
-/

set_option autoImplicit false

namespace Akypuera
namespace Tau

open CText Search Keys Fifo Nesting

/-- A container that is created first, destroyed last, and neither in between. -/
def Lives (ps : List Paje) : Prop :=
  ∃ first mid last, ps = first :: mid ++ [last] ∧ first.creates = true ∧ last.destroys = true ∧
    ∀ p ∈ mid, p.creates = false ∧ p.destroys = false

/-- The openings and closings of a node's container, by the places of the callbacks that wrote
    them, from `i` on. -/
def containerMarksFrom (n : UInt32) (i : Nat) : List (Callback × List Paje) → List (Nat × Mark)
  | [] => []
  | (_, outs) :: rounds =>
      ((about n outs).filterMap Paje.mark).map (i, ·) ++ containerMarksFrom n (i + 1) rounds

def containerMarks (n : UInt32) (r : Run) : List (Nat × Mark) := containerMarksFrom n 0 r.rounds

/-- **The containers and states of a run are well formed.** -/
structure WellFormed (cs : List Callback) (r : Run) : Prop where
  /-- Every callback was made, and returned. -/
  complete : r.stop = none ∧ r.rounds.map Prod.fst = cs
  /-- Each container is created once and destroyed once, and its events lie between. -/
  lives : ∀ t ∈ threads cs, Lives (about t.1 r.trace)
  /-- The times of a container never decrease. -/
  ordered : ∀ n, ((about n r.trace).map Paje.time).Pairwise (· ≤ ·)
  /-- Each `PopState` closes the `PushState` that was written for the matching `EnterState` of
      the same thread. -/
  matched : ∀ n, ∀ x ∈ closings [] (containerMarks n r),
    x.2.isSome = true ∧ ∃ t, x ∈ closings [] (marks (n, t) cs)

/-! ## A thread by itself -/

theorem mem_threads {cs : List Callback} {c : Callback} {t : Thread} (hc : c ∈ cs)
    (ht : c.thread = some t) : t ∈ threads cs := List.mem_filterMap.mpr ⟨c, hc, ht⟩

theorem framedBody_cons {c : Callback} {l : List Callback} (h : framedBody (c :: l) = true) :
    l = [] ∧ (∃ n t, c = .endTrace n t) ∨ l ≠ [] ∧ c.isEvent = true ∧ framedBody l = true := by
  cases l with
  | nil =>
    cases c with
    | endTrace n t => exact .inl ⟨rfl, n, t, rfl⟩
    | _ => exact absurd h (by simp [framedBody])
  | cons c' l =>
    exact .inr ⟨nofun, by simpa [framedBody] using h⟩

theorem framedBody_append {l l' : List Callback} {c : Callback}
    (h : framedBody (l ++ c :: l') = true) : c.isEvent = true ∨ ∃ n t, c = .endTrace n t := by
  induction l with
  | nil =>
    rcases framedBody_cons h with ⟨-, hend⟩ | ⟨-, hevent, -⟩
    · exact .inr hend
    · exact .inl hevent
  | cons c' l ih =>
    rcases framedBody_cons h with ⟨hnil, -⟩ | ⟨-, -, hrest⟩
    · exact absurd hnil (by simp)
    · exact ih hrest

/-- The callbacks of a framed thread: only the first is a `DefThread`. -/
theorem framed_append {l l' : List Callback} {c : Callback} (h : framed (l ++ c :: l') = true) :
    (∃ n t name, c = .defThread n t name) ∧ l = [] ∨
      (c.isEvent = true ∨ ∃ n t, c = .endTrace n t) ∧
        ∃ n t name l'', l = .defThread n t name :: l'' := by
  cases l with
  | nil =>
    cases c with
    | defThread n t name => exact .inl ⟨⟨n, t, name, rfl⟩, rfl⟩
    | _ => exact absurd h (by simp [framed])
  | cons c' l =>
    cases c' with
    | defThread n t name => exact .inr ⟨framedBody_append h, n, t, name, l, rfl⟩
    | _ => exact absurd h (by simp [framed])

theorem ofThread_append (t : Thread) (cs cs' : List Callback) :
    ofThread t (cs ++ cs') = ofThread t cs ++ ofThread t cs' := List.filter_append ..

theorem ofThread_cons_self {t : Thread} {c : Callback} (h : c.thread = some t)
    (cs : List Callback) : ofThread t (c :: cs) = c :: ofThread t cs := by
  simp [ofThread, h]

theorem Disciplined.split {before after : List Callback} {c : Callback} {t : Thread}
    (h : Disciplined (before ++ c :: after) t) (ht : c.thread = some t) :
    Tau.framed (ofThread t before ++ c :: ofThread t after) = true := by
  have hframed := h.framed
  rwa [ofThread_append, ofThread_cons_self ht] at hframed

/-- The node of a callback is defined before. -/
theorem Threaded.defined {before after : List Callback} {c : Callback}
    (h : Threaded (before ++ c :: after)) {t : Thread} (ht : c.thread = some t)
    (hnew : ∀ n tok name, c ≠ .defThread n tok name) : Defined t.1 before := by
  have hmem : c ∈ before ++ c :: after := by simp
  rcases framed_append ((h.disciplined t (mem_threads hmem ht)).split ht) with
    ⟨⟨n, tok, name, rfl⟩, -⟩ | ⟨-, n, tok, name, l, hl⟩
  · exact absurd rfl (hnew n tok name)
  · have hfirst : Callback.defThread n tok name ∈ ofThread t before := by
      rw [hl]; exact List.mem_cons_self
    obtain ⟨hbefore, hthread⟩ := List.mem_filter.mp hfirst
    have hthread : some (n, tok) = some t := of_decide_eq_true hthread
    cases hthread
    exact ⟨tok, name, hbefore⟩

/-- **What tame sequences give each callback.** -/
theorem Tame.ready {args : Arguments} {resolution : ℚ} {before after : List Callback}
    {c : Callback} (hthreaded : Threaded (before ++ c :: after))
    (htame : Tame args resolution (before ++ c :: after)) : Ready args before c := by
  have hmem : c ∈ before ++ c :: after := by simp
  refine ⟨?_, ?_, ?_, ?_, ?_, ?_⟩
  · rintro n tok name rfl ⟨tok', name', hdef⟩
    have hthread : (n, tok) = (n, tok') :=
      htame.alone _ (mem_threads hmem rfl) _
        (mem_threads (List.mem_append_left _ hdef) (rfl : _ = some (n, tok'))) rfl
    obtain ⟨-, htok⟩ := Prod.mk.injEq .. ▸ hthread
    subst htok
    have hdisc := hthreaded.disciplined (n, tok) (mem_threads hmem rfl)
    have hearlier : Callback.defThread n tok name' ∈ ofThread (n, tok) before := by
      simp [ofThread, hdef, Callback.thread]
    rcases framed_append (hdisc.split rfl) with ⟨-, hnil⟩ | ⟨hevent | ⟨_, _, hend⟩, -⟩
    · rw [hnil] at hearlier
      exact absurd hearlier (by simp)
    · exact absurd hevent (by simp [Callback.isEvent, Callback.time])
    · cases hend
  · exact fun t ht hnew => hthreaded.defined ht hnew
  · have hle := le_ranksAfter_append (before ++ [c]) after
    have hnodes := htame.nodes
    rw [List.append_assoc] at hle
    exact Nat.lt_of_le_of_lt hle hnodes
  · apply htame.peers.imp_right
    intro hpeers n hn
    have hat := hpeers ⟨before.length, by simp⟩ n (by simpa using hn)
    simpa using hat
  · intro source destination hkey
    obtain ⟨time, sourceThread, d, destinationThread, size, tag, comm, hsend⟩ := exists_send hkey
    obtain ⟨pre, post, rfl⟩ := List.append_of_mem hsend
    rw [List.append_assoc, List.cons_append] at hthreaded
    have hdef : Defined source pre :=
      hthreaded.defined (rfl : _ = some (source, sourceThread)) fun _ _ _ => nofun
    exact hdef.append _
  · refine htame.answered.imp_right (Or.imp_right fun henough t ht => ?_)
    have hops : messageOps (before ++ c :: after) =
        (messageOps before ++ [.get t]) ++ messageOps after := by
      simp [messageOps, ht]
    rw [hops, List.map_append, admitted_append] at henough
    refine answered_of_enough (fun op hop => ?_) henough.of_append
    rcases List.mem_append.mp hop with hop | hop
    · exact fits_messageOps hop
    · exact @fits_messageOps (before ++ c :: after) _ (by rw [hops]; simp [List.mem_singleton.mp hop])

/-! ## The run -/

/-- Each round wrote what its callback writes after the ones before. -/
def WroteAll (args : Arguments) : List Callback → List (Callback × List Paje) → Prop
  | _, [] => True
  | before, (c, outs) :: rounds =>
      Wrote args before c outs ∧ WroteAll args (before ++ [c]) rounds

/-- **A tame run** makes all callbacks, and keeps the times in order. -/
theorem Inv.run {args : Arguments} {resolution : ℚ} {before cs : List Callback}
    {outs : List Paje} {now : ℚ} {st : State} (h : Inv args (.finite resolution) before outs now st)
    (hthreaded : Threaded (before ++ cs)) (htame : Tame args resolution (before ++ cs))
    (hsec : (now :: secondsFrom st.resolution cs).Pairwise (· ≤ ·)) :
    (run args st cs).stop = none ∧ (run args st cs).rounds.map Prod.fst = cs ∧
      WroteAll args before (run args st cs).rounds ∧
      ∀ n, ((about n (outs ++ (run args st cs).trace)).map Paje.time).Pairwise (· ≤ ·) := by
  induction cs generalizing before outs now st with
  | nil =>
    refine ⟨rfl, rfl, trivial, ?_⟩
    intro n
    have hsorted := h.times.sorted n
    simpa [Tau.run, RunOf.trace] using hsorted
  | cons c cs ih =>
    obtain ⟨hnow, hrest⟩ := ordered_cons hsec
    obtain ⟨done, hcall, hwrote, hinv⟩ :=
      h.step htame.output (Tame.ready hthreaded htame) hnow
    rw [h.resolution, ← resolutionAfter_snoc, ← hinv.resolution, ← h.resolution] at hrest
    have hsplit : before ++ c :: cs = (before ++ [c]) ++ cs := by simp
    rw [hsplit] at hthreaded htame
    obtain ⟨hstop, hrounds, hall, hsorted⟩ := ih hinv hthreaded htame hrest
    simp only [Tau.run, hcall, RunOf.trace, List.map_cons, List.flatMap_cons]
    refine ⟨hstop, congrArg (c :: ·) hrounds, ⟨hwrote, hall⟩, ?_⟩
    intro n
    rw [← List.append_assoc]
    exact hsorted n

/-! ## A node by itself -/

/-- A thread that has its node for itself. -/
def Sole (t : Thread) (cs : List Callback) : Prop :=
  ∀ c ∈ cs, ∀ t' ∈ c.thread, t'.1 = t.1 → t' = t

variable {args : Arguments} {before : List Callback} {c : Callback} {outs : List Paje} {t : Thread}

/-- What is about a node was written by its thread. -/
theorem about_eq (hcontainer : ∀ p ∈ outs, ∃ t' ∈ c.thread, p.container = mpiProcess t'.1)
    (hsole : ∀ t' ∈ c.thread, t'.1 = t.1 → t' = t) :
    about t.1 outs = if c.thread = some t then outs else [] := by
  split
  · next ht =>
    apply List.filter_eq_self.mpr
    intro p hp
    obtain ⟨t', ht', hcont⟩ := hcontainer p hp
    cases ht.symm.trans ht'
    simp [hcont]
  · next ht =>
    refine List.filter_eq_nil_iff.mpr fun p hp hcont => ht ?_
    obtain ⟨t', ht', hcont'⟩ := hcontainer p hp
    have hnode : t'.1 = t.1 := mpiProcess_inj (hcont'.symm.trans (of_decide_eq_true hcont))
    exact hsole t' ht' hnode ▸ ht'

theorem containerMarksFrom_placed (n : UInt32) (i : Nat) (rounds : List (Callback × List Paje)) :
    containerMarksFrom n i rounds = placed (fun x => (about n x.2).filterMap Paje.mark) i rounds := by
  induction rounds generalizing i with
  | nil => rfl
  | cons round rounds ih => rw [containerMarksFrom, ih]; rfl

/-- The marks of a thread's callback. -/
def Callback.marksOf (t : Thread) (c : Callback) : List Mark :=
  if c.thread = some t then c.mark.toList else []

theorem marksFrom_placed (t : Thread) (i : Nat) (cs : List Callback) :
    marksFrom t i cs = placed (Callback.marksOf t) i cs := by
  induction cs generalizing i with
  | nil => rfl
  | cons c cs ih =>
    rw [marksFrom, ih, placed, Callback.marksOf]
    congr 1
    split
    · cases c.mark <;> rfl
    · rfl

theorem WroteAll.split {rounds : List (Callback × List Paje)} (h : WroteAll args before rounds)
    {pre post : List (Callback × List Paje)} {x : Callback × List Paje}
    (heq : rounds = pre ++ x :: post) : Wrote args (before ++ pre.map Prod.fst) x.1 x.2 := by
  subst heq
  induction pre generalizing before with
  | nil =>
    rw [List.map_nil, List.append_nil]
    exact h.1
  | cons y pre ih =>
    have hrest := ih h.2
    rwa [List.append_assoc] at hrest

theorem containerMarksFrom_eq {rounds : List (Callback × List Paje)}
    (h : WroteAll args before rounds) (hsole : Sole t (rounds.map Prod.fst)) :
    containerMarksFrom t.1 before.length rounds =
      (marksFrom t before.length (rounds.map Prod.fst)).filter fun x =>
        shown args (before ++ rounds.map Prod.fst) x.1 := by
  rw [containerMarksFrom_placed, marksFrom_placed]
  apply placed_eq_filter (shown args (before ++ rounds.map Prod.fst))
  intro pre x post heq
  have hwrote := h.split heq
  have hmem : x ∈ rounds := heq ▸ List.mem_append_right pre List.mem_cons_self
  have hhere : shown args (before ++ rounds.map Prod.fst) (before.length + pre.length) =
      shows args (before ++ pre.map Prod.fst) x.1 := by
    simp [shown, heq, ← List.append_assoc]
  rw [about_eq hwrote.container (hsole x.1 (List.mem_map_of_mem hmem)), hhere, Callback.marksOf]
  by_cases ht : x.1.thread = some t
  · rw [if_pos ht, if_pos ht, hwrote.marks]
  · rw [if_neg ht, if_neg ht]
    split <;> rfl

/-- The rounds of a thread. -/
def roundsOf (t : Thread) (rounds : List (Callback × List Paje)) : List (Callback × List Paje) :=
  rounds.filter fun x => x.1.thread = some t

theorem map_roundsOf (t : Thread) (rounds : List (Callback × List Paje)) :
    (roundsOf t rounds).map Prod.fst = ofThread t (rounds.map Prod.fst) := by
  rw [roundsOf, ofThread, List.filter_map]
  rfl

theorem about_rounds {rounds : List (Callback × List Paje)} (h : WroteAll args before rounds)
    (hsole : Sole t (rounds.map Prod.fst)) :
    about t.1 (rounds.flatMap Prod.snd) = (roundsOf t rounds).flatMap Prod.snd := by
  induction rounds generalizing before with
  | nil => rfl
  | cons round rounds ih =>
    obtain ⟨c, outs⟩ := round
    obtain ⟨hwrote, hall⟩ := h
    rw [List.flatMap_cons, about_append, about_eq hwrote.container (hsole c List.mem_cons_self),
      ih hall fun c' hc' => hsole c' (List.mem_cons_of_mem _ hc')]
    by_cases ht : c.thread = some t <;> simp [roundsOf, ht]

theorem WroteAll.life {rounds : List (Callback × List Paje)} (h : WroteAll args before rounds)
    {x : Callback × List Paje} (hx : x ∈ rounds) : Life x.2 x.1 := by
  induction rounds generalizing before with
  | nil => exact absurd hx (by simp)
  | cons round rounds ih =>
    rcases List.mem_cons.mp hx with rfl | hx
    · exact h.1.life
    · exact ih h.2 hx

/-- After its first event, a container's life ends with the last. -/
theorem lives_framedBody {rounds : List (Callback × List Paje)}
    (hlife : ∀ x ∈ rounds, Life x.2 x.1) (h : framedBody (rounds.map Prod.fst) = true) :
    ∃ mid last, rounds.flatMap Prod.snd = mid ++ [last] ∧ last.destroys = true ∧
      ∀ p ∈ mid, p.creates = false ∧ p.destroys = false := by
  induction rounds with
  | nil => exact absurd h (by simp [framedBody])
  | cons round rounds ih =>
    obtain ⟨c, outs⟩ := round
    have hhere := hlife (c, outs) List.mem_cons_self
    rcases framedBody_cons h with ⟨hnil, n, tok, rfl⟩ | ⟨-, hevent, hrest⟩
    · obtain ⟨p, hp, hdestroys⟩ := hhere
      rw [List.map_eq_nil_iff.mp hnil]
      exact ⟨[], p, by simpa using hp, hdestroys, nofun⟩
    · obtain ⟨mid, last, hmid, hlast, hplain⟩ :=
        ih (fun x hx => hlife x (List.mem_cons_of_mem _ hx)) hrest
      have houts : ∀ p ∈ outs, p.creates = false ∧ p.destroys = false := by
        cases c with
        | enterState _ _ _ _ | leaveState _ _ _ _ | eventTrigger _ _ _ _ _
        | sendMessage _ _ _ _ _ _ _ _ | recvMessage _ _ _ _ _ _ _ _ => exact hhere
        | _ => exact absurd hevent (by simp [Callback.isEvent, Callback.time])
      refine ⟨outs ++ mid, last, by rw [List.flatMap_cons, hmid, List.append_assoc], hlast,
        fun p hp => ?_⟩
      exact (List.mem_append.mp hp).elim (houts p) (hplain p)

theorem lives_framed {rounds : List (Callback × List Paje)} (hlife : ∀ x ∈ rounds, Life x.2 x.1)
    (h : framed (rounds.map Prod.fst) = true) : Lives (rounds.flatMap Prod.snd) := by
  cases rounds with
  | nil => exact absurd h (by simp [framed])
  | cons round rounds =>
    obtain ⟨c, outs⟩ := round
    cases c with
    | defThread n tok name =>
      obtain ⟨p, hp, hcreates⟩ := hlife (.defThread n tok name, outs) List.mem_cons_self
      obtain ⟨mid, last, hmid, hlast, hplain⟩ :=
        lives_framedBody (fun x hx => hlife x (List.mem_cons_of_mem _ hx)) h
      have hp : outs = [p] := hp
      refine ⟨p, mid, last, ?_, hcreates, hlast, hplain⟩
      rw [List.flatMap_cons, hmid, hp]
      rfl
    | _ => exact absurd h (by simp [framed])

theorem Alone.sole {cs : List Callback} (h : Alone cs) (ht : t ∈ threads cs) : Sole t cs :=
  fun _ hc t' ht' hnode => h t' (mem_threads hc ht') t ht hnode

theorem fst_mem_marksFrom {i : Nat} {cs : List Callback} {x : Nat × Mark}
    (h : x ∈ marksFrom t i cs) : t ∈ threads cs := by
  induction cs generalizing i with
  | nil => exact absurd h (by simp [marksFrom])
  | cons c cs ih =>
    rw [marksFrom] at h
    rcases List.mem_append.mp h with h | h
    · split at h
      · next ht => exact mem_threads List.mem_cons_self ht
      · exact absurd h (by simp)
    · exact List.mem_filterMap.mpr (by
        obtain ⟨c', hc', ht⟩ := List.mem_filterMap.mp (ih h)
        exact ⟨c', List.mem_cons_of_mem _ hc', ht⟩)

/-- Every node has a thread that has it for itself, whether it occurs or not. -/
theorem Alone.exists_sole {cs : List Callback} (h : Alone cs) (n : UInt32) :
    ∃ t : Thread, t.1 = n ∧ Sole t cs := by
  by_cases hn : ∃ t ∈ threads cs, t.1 = n
  · obtain ⟨t, ht, hn⟩ := hn
    exact ⟨t, hn, h.sole ht⟩
  · exact ⟨(n, 0), rfl, fun _ hc t' ht' hnode => absurd ⟨t', mem_threads hc ht', hnode⟩ hn⟩

/-- **Tame sequences come out well formed.** -/
theorem Tame.wellFormed {resolution : ℚ} {cs : List Callback} (hthreaded : Threaded cs)
    (htame : Tame args resolution cs) :
    WellFormed cs (run args (State.init resolution) cs) := by
  obtain ⟨hstop, hrounds, hall, hsorted⟩ :=
    (Inv.init args resolution).run (show Threaded ([] ++ cs) from hthreaded) htame htame.ordered
  have hsole : ∀ t : Thread, Sole t cs → Sole t ((run args (State.init resolution) cs).rounds.map
      Prod.fst) := by
    intro t ht
    rw [hrounds]
    exact ht
  refine ⟨⟨hstop, hrounds⟩, ?_, hsorted, ?_⟩
  · intro t ht
    rw [RunOf.trace, about_rounds hall (hsole t (htame.alone.sole ht))]
    refine lives_framed (fun x hx => hall.life (List.mem_of_mem_filter hx)) ?_
    rw [map_roundsOf, hrounds]
    exact (hthreaded.disciplined t ht).framed
  · intro n x hx
    obtain ⟨t, rfl, ht⟩ := htame.alone.exists_sole n
    have hmarks := containerMarksFrom_eq hall (hsole t ht)
    rw [hrounds] at hmarks
    have hclosed : ∀ x ∈ closings [] (marks t cs), SameState cs x ∧ ShownAlike args cs x := by
      intro x hx
      have hmem : t ∈ threads cs := by
        cases hm : marks t cs with
        | nil => rw [hm] at hx; exact absurd hx (by simp [closings])
        | cons y ys => exact fst_mem_marksFrom (show y ∈ marksFrom t 0 cs by
            rw [← marks, hm]; exact List.mem_cons_self)
      exact ⟨(hthreaded.disciplined t hmem).nested.2 x hx, htame.names t hmem x hx⟩
    have hkeep : ∀ x ∈ closings [] (marks t cs), ∃ i, x.2 = some i ∧
        shown args cs i = shown args cs x.1 := by
      intro x hx
      obtain ⟨hsame, halike⟩ := hclosed x hx
      cases hi : x.2 with
      | none => exact absurd hsame (by simp [SameState, hi])
      | some i => exact ⟨i, rfl, halike i hi⟩
    have hx : x ∈ closings [] ((marks t cs).filter fun x => shown args cs x.1) := by
      rw [containerMarks] at hx
      exact hmarks ▸ hx
    obtain ⟨hsome, hmem⟩ := (paired_filter (shown args cs) hkeep).1 x hx
    exact ⟨hsome, t.2, hmem⟩

/-! ## Two threads on a node -/

theorem Lives.length_creates {ps : List Paje} (h : Lives ps) :
    (ps.filter Paje.creates).length = 1 := by
  obtain ⟨first, mid, last, rfl, hfirst, hlast, hmid⟩ := h
  have hnone : mid.filter Paje.creates = [] :=
    List.filter_eq_nil_iff.mpr fun p hp => by rw [(hmid p hp).1]; exact Bool.false_ne_true
  have hend : last.creates = false := by
    cases last <;> first | rfl | exact absurd hlast (by simp [Paje.destroys])
  simp [List.filter_append, hnone, hfirst, hend]

theorem mem_rounds {st : State} {cs : List Callback}
    (h : (run args st cs).rounds.map Prod.fst = cs) {c : Callback} (hc : c ∈ cs) :
    ∃ outs, (c, outs) ∈ (run args st cs).rounds := by
  rw [← h] at hc
  obtain ⟨⟨c', outs⟩, hx, rfl⟩ := List.mem_map.mp hc
  exact ⟨outs, hx⟩

theorem defThread_outs {st : State} {nodeid : UInt32} {done : Done} (hdummy : args.dummy = false)
    (h : defThread args st nodeid = .ok done) :
    done.outs = [.createContainer 0 (mpiProcess nodeid) sProcess sRoot (mpiProcess nodeid)] := by
  simp only [defThread, hdummy] at h
  split at h
  · cases h; rfl
  · cases h

theorem createsAbout {rounds : List (Callback × List Paje)} {n tok : UInt32} {name : Str}
    {outs : List Paje} (hx : (.defThread n tok name, outs) ∈ rounds)
    (houts : outs = [.createContainer 0 (mpiProcess n) sProcess sRoot (mpiProcess n)]) :
    0 < ((about n (rounds.flatMap Prod.snd)).filter Paje.creates).length := by
  refine @List.length_pos_of_mem _ (.createContainer 0 (mpiProcess n) sProcess sRoot (mpiProcess n))
    _ ?_
  refine List.mem_filter.mpr ⟨List.mem_filter.mpr ⟨List.mem_flatMap.mpr ⟨_, hx, ?_⟩, ?_⟩, rfl⟩
  · simp [houts]
  · simp [Paje.container]

/-- **A node with two threads gets two containers.** -/
theorem WellFormed.alone {st : State} {cs : List Callback} (hdummy : args.dummy = false)
    (hthreaded : Threaded cs) (h : WellFormed cs (run args st cs)) : Alone cs := by
  have hfirst : ∀ t ∈ threads cs, ∃ name outs,
      (Callback.defThread t.1 t.2 name, outs) ∈ (run args st cs).rounds ∧
      outs = [.createContainer 0 (mpiProcess t.1) sProcess sRoot (mpiProcess t.1)] := by
    intro t ht
    have hframed := (hthreaded.disciplined t ht).framed
    cases hof : ofThread t cs with
    | nil => rw [hof] at hframed; exact absurd hframed (by simp [framed])
    | cons c l =>
      have hc : c ∈ ofThread t cs := by rw [hof]; exact List.mem_cons_self
      obtain ⟨hmem, hthread⟩ := List.mem_filter.mp hc
      rw [hof] at hframed
      cases c with
      | defThread n tok name =>
        have hthread : some (n, tok) = some t := of_decide_eq_true hthread
        cases hthread
        obtain ⟨outs, hx⟩ := mem_rounds h.complete.2 hmem
        obtain ⟨st', done, hcall, houts⟩ := exists_call hx
        exact ⟨name, outs, hx, houts.trans (defThread_outs hdummy hcall)⟩
      | _ => exact absurd hframed (by simp [framed])
  intro t ht t' ht' hnode
  by_contra hne
  obtain ⟨name, outs, hx, houts⟩ := hfirst t ht
  obtain ⟨name', outs', hx', houts'⟩ := hfirst t' ht'
  rw [← hnode] at hx' houts'
  obtain ⟨pre, post, hsplit⟩ := List.append_of_mem hx
  have hone := (h.lives t ht).length_creates
  rw [RunOf.trace, hsplit, List.flatMap_append, List.flatMap_cons, about_append, about_append,
    List.filter_append, List.filter_append, List.length_append, List.length_append] at hone
  simp only [] at hone
  have hhere : 0 < ((about t.1 outs).filter Paje.creates).length := by
    have hself := createsAbout (List.mem_singleton.mpr rfl :
      (Callback.defThread t.1 t.2 name, outs) ∈ [(Callback.defThread t.1 t.2 name, outs)]) houts
    simpa using hself
  rw [hsplit] at hx'
  rcases List.mem_append.mp hx' with hx' | hx'
  · have hother := createsAbout hx' houts'
    omega
  · rcases List.mem_cons.mp hx' with heq | hx'
    · have htok : t'.2 = t.2 := by
        injection heq with heq
        injection heq
      exact hne (Prod.ext hnode htok.symm)
    · have hother := createsAbout hx' houts'
      omega

/-- **The threads of a trace that tau2paje keeps apart.** Where no two threads are on one node, and
    the smaller conditions hold, its containers and states are well formed; with two threads on a
    node they are not. -/
theorem tau_wellFormed (args : Arguments) (resolution : ℚ) (cs : List Callback)
    (hthreaded : Threaded cs) :
    (Tame args resolution cs → WellFormed cs (run args (State.init resolution) cs)) ∧
      (args.dummy = false → WellFormed cs (run args (State.init resolution) cs) → Alone cs) :=
  ⟨fun htame => htame.wellFormed hthreaded, fun hdummy h => h.alone hdummy hthreaded⟩

/-- Two nodes with a thread each, a state on each of them, and a message between. -/
def twoNodes : List Callback :=
  [.clockPeriod (1 / 1000), .defThread 0 0 "a".toList, .defThread 1 0 "b".toList,
   .defState 7 "MPI_Send()".toList 1, .enterState 1 0 0 7, .enterState 2 1 0 7,
   .sendMessage 3 0 0 1 0 8 42 0, .recvMessage 4 0 0 1 0 8 42 0, .leaveState 5 1 0 7,
   .leaveState 6 0 0 7, .endTrace 1 0, .endTrace 0 0]

theorem tau_wellFormed_twoNodes :
    WellFormed twoNodes (run plainly (State.init 0) twoNodes) :=
  (tau_wellFormed plainly 0 twoNodes (by decide +kernel)).1 (by decide +kernel)

/-- Two threads of one node. -/
def twoThreads : List Callback :=
  [.defThread 0 0 "a".toList, .defThread 0 1 "b".toList, .endTrace 0 0, .endTrace 0 1]

/-- **A node with two threads is created and destroyed twice.** -/
theorem tau_not_wellFormed :
    Threaded twoThreads ∧ ¬ WellFormed twoThreads (run plainly (State.init 0) twoThreads) := by
  have hthreaded : Threaded twoThreads := by decide +kernel
  refine ⟨hthreaded, ?_⟩
  intro h
  have halone := h.alone rfl hthreaded
  revert halone
  decide +kernel

end Tau
end Akypuera

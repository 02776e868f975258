import Akypuera.Converter.Rounds
import Akypuera.System.Streams

/-!
# The converted trace is structurally valid

A Paje trace is a sequence of events over a tree of containers: the root, and one container
for each rank. `WellFormed` says what a reader of the trace relies on, container by container:
the root is there before and after everything else, and each rank's container has a
`Lifecycle`: **created once, then only states and links, with at most one state open at a
time and none at the end, then destroyed once**.

The proof never looks at the merge. A round writes about its own rank (`Wrote.container`), so
the events of a container are what the rounds of its rank wrote, and these follow that rank's
own stream: each bracket of the stream is `Quiet`, from depth 0 back to depth 0, and quiet
sequences compose.
-/

set_option autoImplicit false

namespace Akypuera
namespace System

open CText Converter Tracer Code

/-- The number of open states after an event, when it may not exceed one. -/
def nest : Nat → Paje → Option Nat
  | 0, .pushState .. => some 1
  | _ + 1, .pushState .. => none
  | 0, .popState .. => none
  | d + 1, .popState .. => some d
  | d, _ => some d

/-- The number of open states after some events. -/
def nesting (d : Nat) (ps : List Paje) : Option Nat := ps.foldlM nest d

/-- An event that creates or destroys nothing. -/
def isInner : Paje → Bool
  | .createContainer .. | .destroyContainer .. => false
  | _ => true

/-- Only states and links, each state closed before the next. -/
structure Quiet (ps : List Paje) : Prop where
  inner : ∀ p ∈ ps, isInner p = true
  depth : nesting 0 ps = some 0

/-- The events of a rank's container. -/
def Lifecycle (c : Str) (ps : List Paje) : Prop :=
  ∃ t t' inner, ps = .createContainer t c sProcess sRoot c :: inner ++
    [.destroyContainer t' sProcess c] ∧ Quiet inner

/-- A structurally valid trace over the ranks below `n`. -/
structure WellFormed (n : Nat) (trace : List Paje) : Prop where
  root : ∃ t t' body, trace =
      .createContainer t sRoot "ROOT".toList "0".toList sRoot :: body ++
        [.destroyContainer t' "ROOT".toList sRoot] ∧
      ∀ p ∈ body, p.container ≠ sRoot ∧ ∃ r < n, p.container = mpiProcess (.ofNat r)
  ranks : ∀ r < n, Lifecycle (mpiProcess (.ofNat r))
    (trace.filter fun p => p.container = mpiProcess (.ofNat r))

/-! ## Quiet sequences -/

theorem nesting_append (d : Nat) (ps qs : List Paje) :
    nesting d (ps ++ qs) = (nesting d ps).bind fun d' => nesting d' qs := List.foldlM_append

theorem Quiet.nil : Quiet [] := ⟨fun p hp => absurd hp (by simp), rfl⟩

theorem Quiet.append {ps qs : List Paje} (h : Quiet ps) (h' : Quiet qs) : Quiet (ps ++ qs) where
  inner p hp := (List.mem_append.mp hp).elim (h.inner p) (h'.inner p)
  depth := by rw [nesting_append, h.depth]; exact h'.depth

/-- Links change no depth. -/
theorem nesting_links {ps : List Paje} (h : ∀ p ∈ ps, p.isLink = true) (d : Nat) :
    nesting d ps = some d := by
  induction ps with
  | nil => rfl
  | cons p ps ih =>
    have hp := h p (by simp)
    have hnest : nest d p = some d := by
      cases p <;> simp [Paje.isLink] at hp <;> cases d <;> rfl
    show (nest d p).bind (fun d' => nesting d' ps) = some d
    rw [hnest]
    exact ih fun q hq => h q (by simp [hq])

theorem isInner_of_isLink {p : Paje} (h : p.isLink = true) : isInner p = true := by
  cases p <;> simp [Paje.isLink, isInner] at h ⊢

/-- **A state around some links is quiet.** -/
theorem Quiet.bracket {t t' : ℚ} {c ty v c' ty' : Str} {u : Option (UserEvent × List Str)}
    {links : List Paje} (h : ∀ p ∈ links, p.isLink = true) :
    Quiet (.pushState t c ty v u :: links ++ [.popState t' c' ty']) := by
  refine ⟨?_, ?_⟩
  · intro p hp
    rcases List.mem_append.mp hp with hp | hp
    · rcases List.mem_cons.mp hp with rfl | hp
      · rfl
      · exact isInner_of_isLink (h p hp)
    · rw [List.mem_singleton.mp hp]; rfl
  · rw [List.cons_append]
    show nesting 1 (links ++ [.popState t' c' ty']) = some 0
    rw [nesting_append, nesting_links h]
    rfl

theorem Quiet.links {links : List Paje} (h : ∀ p ∈ links, p.isLink = true) : Quiet links :=
  ⟨fun p hp => isInner_of_isLink (h p hp), nesting_links h 0⟩

/-! ## What a process's rounds write -/

/-- The round of a record's event wrote `ps` for its rank. -/
def Round (args : Arguments) (id : UInt64) (r : Record) (ps : List Paje) : Prop :=
  ∃ e, Event.Decodes id r e ∧ Wrote args e ps

variable {args : Arguments} {id : UInt64}

theorem Round.link {r : Record} {ps : List Paje} (h : Round args id r ps)
    (hl : (arm r.type).isLink = true) : ∀ p ∈ ps, p.isLink = true := by
  obtain ⟨e, hd, hw⟩ := h
  rw [← hd.type] at hl
  unfold Wrote at hw
  cases ha : arm e.type <;> simp [ha, Arm.isLink] at hl hw
  all_goals exact fun p hp => (hw p hp).1

theorem Round.push {r : Record} {ps : List Paje} (h : Round args id r ps)
    (hp : (arm r.type).pushes = true) :
    if args.noStates then ps = [] else ∃ t v u, ps = [.pushState t (mpiProcess id) sState v u] := by
  obtain ⟨e, hd, hw⟩ := h
  rw [← hd.type] at hp
  unfold Wrote at hw
  rw [hd.id1] at hw
  cases ha : arm e.type <;> simp [ha, Arm.pushes] at hp hw
  all_goals
    split
    · rwa [if_pos ‹_›] at hw
    · rw [if_neg ‹_›] at hw; exact ⟨_, hw⟩

theorem Round.pop {r : Record} {ps : List Paje} (h : Round args id r ps)
    (hp : arm r.type = .popState) :
    if args.noStates then ps = [] else ∃ t, ps = [.popState t (mpiProcess id) sState] := by
  obtain ⟨e, hd, hw⟩ := h
  rw [← hd.type] at hp
  unfold Wrote at hw
  rw [hd.id1] at hw
  simp only [hp] at hw
  split
  · rwa [if_pos ‹_›] at hw
  · rw [if_neg ‹_›] at hw; exact ⟨_, hw⟩

/-- Messages write links. -/
theorem rounds_links {rs : List Record} {yss : List (List Paje)}
    (h : List.Forall₂ (Round args id) rs yss) (hl : ∀ r ∈ rs, (arm r.type).isLink = true) :
    ∀ p ∈ yss.flatten, p.isLink = true := by
  induction h with
  | nil => exact fun p hp => absurd hp (by simp)
  | cons hr _ ih =>
    intro p hp
    rw [List.flatten_cons, List.mem_append] at hp
    rcases hp with hp | hp
    · exact hr.link (hl _ (by simp)) p hp
    · exact ih (fun r hr' => hl r (by simp [hr'])) p hp

/-- **A bracket is quiet.** -/
theorem rounds_bracketed {rs : List Record} {yss : List (List Paje)} (hb : Bracketed rs)
    (h : List.Forall₂ (Round args id) rs yss) : Quiet yss.flatten := by
  rcases hb with rfl | ⟨opening, messages, closing, rfl, ho, hm, hc⟩
  · cases h
    exact Quiet.nil
  · obtain ⟨zss, wss, rfl, hz, hw⟩ := h.split
    cases hz with
    | cons hopen hmsgs =>
      cases hw with
      | cons hclose hnil =>
        cases hnil
        have hlinks := rounds_links hmsgs fun m h => (hm m h).isLink
        have hpush := hopen.push ho.pushes
        have hpop := hclose.pop hc
        cases hs : args.noStates with
        | true =>
          rw [if_pos hs] at hpush hpop
          rw [hpush, hpop]
          simpa using Quiet.links hlinks
        | false =>
          rw [if_neg (by simp [hs])] at hpush hpop
          obtain ⟨t, v, u, rfl⟩ := hpush
          obtain ⟨t', rfl⟩ := hpop
          simpa using Quiet.bracket hlinks

/-- The calls of a process are quiet. -/
theorem rounds_calls {rss : List (List Record)} {yss : List (List Paje)}
    (hb : ∀ rs ∈ rss, Bracketed rs) (h : List.Forall₂ (Round args id) rss.flatten yss) :
    Quiet yss.flatten := by
  induction rss generalizing yss with
  | nil => cases h; exact Quiet.nil
  | cons rs rss ih =>
    rw [List.flatten_cons] at h
    obtain ⟨zss, wss, rfl, hz, hw⟩ := h.split
    rw [List.flatten_append]
    exact (rounds_bracketed (hb rs (by simp)) hz).append
      (ih (fun rs' h' => hb rs' (by simp [h'])) hw)

/-- **A process's container has a lifecycle.** -/
theorem rounds_stream {cs : List Call} {yss : List (List Paje)}
    (h : List.Forall₂ (Round args id) (stream cs) yss) :
    Lifecycle (mpiProcess id) yss.flatten := by
  unfold stream at h
  obtain ⟨zss, fss, rfl, hz, hf⟩ := h.split
  obtain ⟨iss, css, rfl, hi, hc⟩ := hz.split
  have hcalls := rounds_calls (runCalls_bracketed Library.init cs) hc
  -- `MPI_Init` creates the container
  obtain ⟨t, rfl⟩ : ∃ t, iss =
      [[.createContainer t (mpiProcess id) sProcess sRoot (mpiProcess id)]] := by
    cases hi with
    | cons hround hnil =>
      cases hnil
      obtain ⟨e, hd, hw⟩ := hround
      have ha : arm e.type = .init := by rw [hd.type]; decide +kernel
      unfold Wrote at hw
      rw [ha, hd.id1] at hw
      exact ⟨e.timestamp, by rw [hw]⟩
  -- `MPI_Finalize` is a last state, and destroys it
  obtain ⟨t', state, hfss, hstate⟩ : ∃ t' state,
      fss.flatten = state ++ [.destroyContainer t' sProcess (mpiProcess id)] ∧ Quiet state := by
    cases hf with
    | cons hin hrest =>
      cases hrest with
      | cons hout hnil =>
        cases hnil
        have hpush := hin.push (opens_plain (arm_opening mpiFinalizeIn (by simp)) [] []).pushes
        obtain ⟨e, hd, hw⟩ := hout
        have ha : arm e.type = .finalizeOut := by rw [hd.type]; decide +kernel
        unfold Wrote at hw
        rw [ha, hd.id1] at hw
        cases hs : args.noStates with
        | true =>
          rw [if_pos hs] at hpush
          simp only [hs, if_true] at hw
          exact ⟨e.timestamp, [], by simp [hpush, hw], Quiet.nil⟩
        | false =>
          rw [if_neg (by simp [hs])] at hpush
          obtain ⟨t₁, v, u, hpush⟩ := hpush
          simp only [hs] at hw
          refine ⟨e.timestamp, .pushState t₁ (mpiProcess id) sState v u :: [] ++
            [.popState e.timestamp (mpiProcess id) sState], by simp [hpush, hw], ?_⟩
          exact Quiet.bracket (by simp)
  refine ⟨t, t', css.flatten ++ state, ?_, hcalls.append hstate⟩
  rw [List.flatten_append, List.flatten_append, hfss]
  simp

/-! ## The whole trace -/

/-- The rounds of a merge wrote what its processes' records call for. -/
theorem rounds_ofRank {n : Nat} {streams : Nat → List Record} {es : List Event}
    {owns : List (List Paje)} (hmerge : Merged n streams es)
    (howns : List.Forall₂ (Wrote args) es owns) {r : Nat} (hr : r < n) (hr64 : r < 2 ^ 64) :
    ∃ yss, List.Forall₂ (Round args (UInt64.ofNat r)) (streams r) yss ∧
      owns.flatten.filter (fun p => p.container = mpiProcess (.ofNat r)) = yss.flatten := by
  have hin : ∀ e ps, Wrote args e ps → decide (e.id1.toNat = r) = true →
      ∀ p ∈ ps, decide (p.container = mpiProcess (.ofNat r)) = true := by
    intro e ps hw he p hp
    rw [decide_eq_true_eq] at he ⊢
    rw [hw.container p hp, ← he, UInt64.ofNat_toNat]
  have hout : ∀ e ps, Wrote args e ps → decide (e.id1.toNat = r) = false →
      ∀ p ∈ ps, decide (p.container = mpiProcess (.ofNat r)) = false := by
    intro e ps hw he p hp
    rw [decide_eq_false_iff_not] at he ⊢
    rw [hw.container p hp]
    intro hc
    refine he ?_
    rw [mpiProcess_inj hc, UInt64.toNat_ofNat']
    exact Nat.mod_eq_of_lt hr64
  obtain ⟨yss, hyss, heq⟩ := howns.filter hin hout
  exact ⟨yss, (hmerge.streams r hr).comp hyss, heq⟩

/-- The first event of a merge starts its rank's stream. -/
theorem merge_head {n : Nat} {procs : Nat → List Call} {e : Event} {es : List Event}
    (hmerge : Merged n (fun r => stream (procs r)) (e :: es)) : arm e.type = .init := by
  have hstream := hmerge.streams e.id1.toNat (hmerge.ranks e (by simp))
  have hhead : ofRank (e :: es) e.id1.toNat = e :: ofRank es e.id1.toNat :=
    List.filter_cons_of_pos (by simp)
  rw [hhead] at hstream
  cases hstream with
  | cons hd _ => rw [hd.type]; decide +kernel

/-- **The converted trace is structurally valid.** For any processes, any merge of their
    streams, any flags and any size of the key table, no assert fails and the trace is well
    formed, as long as no receive misses its key or misses are ignored. -/
theorem convert_wellFormed (args : Arguments) (size : Option Nat) {n : Nat} (hn : 0 < n)
    (procs : Nat → List Call) {es : List Event}
    (hmerge : Merged n (fun r => stream (procs r)) es) (htime : ∀ e ∈ es, 0 ≤ e.timestamp)
    (hquiet : args.ignoreErrors = true ∨ (convert args size es).reports = []) :
    (convert args size es).died = false ∧ WellFormed n (convert args size es).trace := by
  have hpass : ∀ e ∈ es, passes args e = true := by
    intro e he
    obtain ⟨record, hrecord, hd⟩ := hmerge.mem he
    exact passes_of_sound (stream_sound _ record hrecord) hd
  -- every rank has events, so its number is one of 64 bits
  have hsome : ∀ r < n, ∃ e ∈ es, e.id1.toNat = r := by
    intro r hr
    have hstream := hmerge.streams r hr
    cases hes : ofRank es r with
    | nil => rw [hes] at hstream; cases hstream
    | cons e _ =>
      have he : e ∈ ofRank es r := by rw [hes]; simp
      exact ⟨e, (List.mem_filter.mp he).1, by simpa using (List.mem_filter.mp he).2⟩
  cases es with
  | nil =>
    obtain ⟨e, he, _⟩ := hsome 0 hn
    exact absurd he (by simp)
  | cons e es =>
    have hinit := merge_head hmerge
    obtain ⟨⟨st, outs⟩, hstep, hround⟩ := step_round (State.init size) (hpass e (by simp))
    have hrun : convert args size (e :: es) = { loop args st es with
        rounds := (e, outs) :: (loop args st es).rounds } := loop_cons es rfl hstep
    have hquiet' : args.ignoreErrors = true ∨
        reports outs = [] ∧ reports ((loop args st es).rounds.flatMap Prod.snd) = [] := by
      apply hquiet.imp_right
      intro h
      rw [hrun] at h
      simp only [RunOf.reports, RunOf.outs, List.flatMap_cons, reports_append,
        List.append_eq_nil_iff] at h
      exact h.1
    have hfail : st.fail = false := hround.fail (hquiet'.imp_right And.left)
    have hroot : st.rootCreated = true := by rw [hround.rootCreated]; simp [hinit]
    obtain ⟨hdied, hlast, owns, howns, htrace⟩ :=
      loop_wrote es (fun e' h => hpass e' (by simp [h])) hfail hroot
        (hquiet'.imp_right And.right)
    obtain ⟨ps, hwrote, hps⟩ := hround.trace
    rw [if_pos ⟨hinit, rfl⟩] at hps
    have htime' : 0 ≤ (loop args st es).state.timestamp := by
      rw [hlast, hround.timestamp]
      cases hl : es.getLast? with
      | none => exact htime e (by simp)
      | some last => exact htime last (by simp [List.mem_of_getLast? hl])
    have hall : List.Forall₂ (Wrote args) (e :: es) (ps :: owns) := List.Forall₂.cons hwrote howns
    have hbody : (convert args size (e :: es)).trace =
        .createContainer e.timestamp sRoot "ROOT".toList "0".toList sRoot ::
          (ps :: owns).flatten ++
        [.destroyContainer (loop args st es).state.timestamp "ROOT".toList sRoot] := by
      rw [hrun, RunOf.trace_eq, RunOf.outs, if_pos ⟨hdied, htime'⟩, pajes_append, List.flatMap_cons,
        pajes_append, hps, htrace]
      simp [pajes]
    refine ⟨by rw [hrun]; exact hdied, ⟨_, _, _, hbody, ?_⟩, ?_⟩
    · intro p hp
      obtain ⟨ps', hps', hp'⟩ := List.mem_flatten.mp hp
      obtain ⟨e', he', hw⟩ := hall.exists_of_mem_right hps'
      rw [hw.container p hp']
      exact ⟨mpiProcess_ne_root _, e'.id1.toNat, hmerge.ranks e' he', by simp⟩
    · intro r hr
      obtain ⟨e', _, he'⟩ := hsome r hr
      obtain ⟨yss, hyss, heq⟩ := rounds_ofRank hmerge hall hr (he' ▸ e'.id1.toNat_lt)
      have hne : sRoot ≠ mpiProcess (.ofNat r) := (mpiProcess_ne_root _).symm
      have hlife := rounds_stream hyss
      rw [hbody, List.filter_append, List.filter_cons_of_neg, heq]
      · simpa [Paje.container, hne] using hlife
      · simp [Paje.container, hne]

/-- Two ranks meet at a barrier. -/
def barrier : List (UInt64 × ℚ × Record) :=
  [(1, 0, rstEvent mpiInit), (0, 0, rstEvent mpiInit), (1, 1, rstEvent mpiBarrierIn),
   (0, 1, rstEvent mpiBarrierIn), (0, 2, rstEvent mpiBarrierOut),
   (0, 2, rstEvent mpiFinalizeIn), (1, 2, rstEvent mpiBarrierOut),
   (0, 3, rstEvent mpiFinalizeOut), (1, 3, rstEvent mpiFinalizeIn),
   (1, 4, rstEvent mpiFinalizeOut)]

theorem convert_wellFormed_barrier :
    WellFormed 2 (convert ⟨true, false, false⟩ none (events barrier)).trace := by
  have hmerge : Merged 2 (fun _ => stream [.plain ⟨mpiBarrier, by decide⟩]) (events barrier) :=
    merged_events (by decide) (by decide)
  have htime : ∀ e ∈ events barrier, 0 ≤ e.timestamp := by
    intro e he
    obtain ⟨m, hm, rfl⟩ := List.mem_map.mp he
    have hall : ∀ m ∈ barrier, 0 ≤ m.2.1 := by decide
    exact hall m hm
  exact (convert_wellFormed ⟨true, false, false⟩ none (by decide) _ hmerge htime
    (Or.inl rfl)).2

end System
end Akypuera

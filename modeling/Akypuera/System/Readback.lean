import Akypuera.Converter.Lines
import Akypuera.System.Validity

/-!
# Reading the converted trace back

What the tracer and the converter are for: a reader of the Paje trace should see **what the
processes did**. `calls_read` says that the trace of any program is accepted, that every rank has
one container under the root, and that the calls its states show are the rank's MPI calls, in order,
under their names and at the times of their records.

A call is known by the number of its `_IN` record. As the names of these numbers are distinct, the
trace can be read back to the calls (`wrappers_read`).
-/

set_option autoImplicit false

namespace Akypuera
namespace Tracer

open Code

/-- The number that a call's first record has. -/
def Call.opens : Call → Option Nat
  | plain b => some b.1.inType
  | getProcessorName => none
  | bcast _ _ _ _ => some mpiBcastIn
  | gather _ _ _ => some mpiGatherIn
  | reduce _ _ _ _ => some mpiReduceIn
  | scatter _ _ _ _ => some mpiScatterIn
  | bsend _ => some mpiBsendIn
  | ibsend _ => some mpiIbsendIn
  | irsend _ => some mpiIrsendIn
  | isend _ _ => some mpiIsendIn
  | issend _ => some mpiIssendIn
  | rsend _ => some mpiRsendIn
  | send _ => some mpiSendIn
  | ssend _ => some mpiSsendIn
  | recv _ _ _ _ => some mpiRecvIn
  | irecv _ _ _ => some mpiIrecvIn
  | wait _ _ => some mpiWaitIn
  | waitall _ _ => some mpiWaitallIn
  | waitany _ _ _ => some mpiWaitanyIn

theorem Call.run_opens (tr : Library) (c : Call) :
    (c.run tr).1.head?.map Record.type = c.opens := by
  cases c with
  | bcast comm count tsize root =>
    by_cases hr : comm.rank = root <;> simp [Call.run, mpiBcast, hr, Call.opens, rstEventL, rstEvent]
  | gather comm sendcnt root =>
    by_cases hr : comm.rank = root <;> simp [Call.run, mpiGather, hr, Call.opens, rstEvent, rstEventL]
  | reduce comm count tsize root =>
    by_cases hr : comm.rank = root <;> simp [Call.run, mpiReduce, hr, Call.opens, rstEvent, rstEventL]
  | scatter comm sendcnt tsize root =>
    by_cases hr : comm.rank = root <;> simp [Call.run, mpiScatter, hr, Call.opens, rstEvent, rstEventL]
  | wait request source =>
    by_cases hs : akyCheckIsend tr request ≠ 0 <;>
      simp [Call.run, mpiWait, hs, Call.opens, rstEvent, rstEventL]
  | _ => rfl

end Tracer

namespace System

open CText Code Converter Tracer Scene
open Keys (akyDefaultStrSize)

/-- The name of a call with the number `type`. -/
def nameOf (type : Nat) : Str := (nameGet type).getD []

/-- How the records of a process make calls: the number of each call, and how many records. -/
def brackets (tr : Library) : List Call → List (Option Nat × Nat)
  | [] => [(some mpiFinalizeIn, 2)]
  | c :: cs => (c.opens, (c.run tr).1.length) :: brackets (c.run tr).2 cs

/-- A call with the times of its first and its last event. -/
def spanOf (opens : Option Nat) (mine : List Event) : Option (Nat × ℚ × ℚ) := do
  let type ← opens
  let first ← mine.head?
  let last ← mine.getLast?
  return (type, first.timestamp, last.timestamp)

/-- The calls that events show. -/
def spans : List (Option Nat × Nat) → List Event → List (Nat × ℚ × ℚ)
  | [], _ => []
  | (opens, n) :: bs, es => (spanOf opens (es.take n)).toList ++ spans bs (es.drop n)

/-- **The calls of a process**, from the events of its stream: the first one is `MPI_INIT`. -/
def timedCalls (cs : List Call) (mine : List Event) : List (Nat × ℚ × ℚ) :=
  spans (brackets Library.init cs) (mine.drop 1)

/-- The same, as they are shown. -/
def shownCalls (cs : List Call) (mine : List Event) : Calls ℚ Str :=
  Calls.flat ((timedCalls cs mine).map fun x => (nameOf x.1, x.2))

/-- The start or end of a call that an event of the trace shows. -/
def mark (p : Paje) : Option (Calls.Mark ℚ Str) := p.line.mark akyTypes

/-- The marks of a sequence. -/
def marksOf (ps : List Paje) : List (Calls.Mark ℚ Str) := ps.filterMap mark

theorem marksOf_append (ps qs : List Paje) : marksOf (ps ++ qs) = marksOf ps ++ marksOf qs :=
  List.filterMap_append

/-- Links show nothing. -/
theorem marksOf_plain (ps : List Paje) : marksOf (plain ps) = marksOf ps := by
  unfold marksOf plain
  rw [List.filterMap_filter]
  refine List.filterMap_congr fun p _ => ?_
  cases p <;> rfl

theorem marks_flat_append (l l' : List (Str × ℚ × ℚ)) :
    (Calls.flat (l ++ l')).marks = (Calls.flat l).marks ++ (Calls.flat l').marks := by
  rw [Calls.flat_append, Calls.marks, Calls.render_append]
  rfl

variable {args : Arguments} {id : UInt64}

/-- A string has no more characters than bytes. -/
theorem length_toList_le (s : String) : s.toList.length ≤ s.utf8ByteSize := by
  rw [← String.utf8Len_toList]
  induction s.toList with
  | nil => exact Nat.zero_le _
  | cons c cs ih =>
    have hpos := c.utf8Size_pos
    rw [List.length_cons, String.utf8Len_cons]
    omega

/-- A name fits in its buffer. -/
theorem stateValue_eq {e : Event} (h : (nameGet e.type).isSome = true) :
    stateValue e = some (nameOf e.type) := by
  have hshort : ∀ x ∈ mpiNames, x.2.utf8ByteSize < akyDefaultStrSize := by decide +kernel
  obtain ⟨name, hname⟩ := Option.isSome_iff_exists.mp h
  obtain ⟨text, htext, rfl⟩ := Option.map_eq_some_iff.mp hname
  have hlen : text.toList.length < akyDefaultStrSize := by
    obtain ⟨before, after, hsplit, -⟩ := List.lookup_eq_some_iff.mp htext
    exact (length_toList_le text).trans_lt (hshort (e.type, text) (by rw [hsplit]; simp))
  rw [stateValue, nameOf, hname, Option.map_some, fit_of_length_lt hlen]
  rfl

/-- **A pushed state shows its call's name.** -/
theorem shown_push {e : Event} (hs : args.noStates = false) (hp : passes args e = true)
    (hpush : (arm e.type).pushes = true) :
    marksOf (shown args e) = [.enter e.timestamp (nameOf e.type)] := by
  obtain ⟨out, hout⟩ : ∃ out, statePushed e = some out := by
    simpa [passes, hpush, hs, Option.isSome_iff_exists] using hp
  obtain ⟨u, rfl⟩ : ∃ u, out = .paje (.pushState e.timestamp (mpiProcess e.id1) sState
      (nameOf e.type) u) := by
    have hvalue := stateValue_eq (nameGet_isSome hpush)
    unfold statePushed at hout
    cases ha : arm e.type with
    | pushState =>
      simp only [ha, pushState, hvalue, Option.bind_eq_bind, Option.bind_some] at hout
      split at hout <;> (cases hout; exact ⟨_, rfl⟩)
    | pushStateSend =>
      simp only [ha, pushStateSend, hvalue, Option.bind_eq_bind, Option.bind_some,
        Option.bind_eq_some_iff] at hout
      obtain ⟨-, -, -, -, hout⟩ := hout
      cases hout
      exact ⟨_, rfl⟩
    | pushStateRecv =>
      simp only [ha, pushStateRecv, hvalue, Option.bind_eq_bind, Option.bind_some,
        Option.bind_eq_some_iff] at hout
      obtain ⟨-, -, hout⟩ := hout
      cases hout
      exact ⟨_, rfl⟩
    | _ => rw [ha] at hpush; exact absurd hpush (by simp [Arm.pushes])
  unfold shown
  cases ha : arm e.type <;> simp [ha, Arm.pushes] at hpush
  all_goals
    simp only [hs, hout]
    rfl

theorem marksOf_shown_append (es es' : List Event) :
    marksOf ((es ++ es').flatMap (shown args)) =
      marksOf (es.flatMap (shown args)) ++ marksOf (es'.flatMap (shown args)) := by
  rw [List.flatMap_append, marksOf_append]

/-- Messages show nothing. -/
theorem shown_messages {rs : List Record} {es : List Event} (hm : ∀ m ∈ rs, Message m)
    (h : List.Forall₂ (Event.Decodes id) rs es) : es.flatMap (shown args) = [] := by
  induction h with
  | nil => rfl
  | @cons r e rs es hdec _ ih =>
    have hlink : (arm e.type).isLink = true := by rw [hdec.type]; exact (hm r (by simp)).isLink
    have hnone : shown args e = [] := by
      unfold shown
      cases ha : arm e.type <;> simp [ha, Arm.isLink] at hlink ⊢
    rw [List.flatMap_cons, hnone, ih fun m hm' => hm m (by simp [hm'])]
    rfl

theorem shown_pop {e : Event} (hs : args.noStates = false) (hpop : arm e.type = .popState) :
    marksOf (shown args e) = [.leave e.timestamp] := by
  simp only [shown, hpop, hs]
  rfl

/-- **A bracket shows one call**, from its first event to its last. -/
theorem marks_bracket (hs : args.noStates = false) {rs : List Record} {es : List Event}
    (hb : Bracketed rs) (h : List.Forall₂ (Event.Decodes id) rs es) :
    marksOf (es.flatMap (shown args)) =
      (Calls.flat ((spanOf (rs.head?.map Record.type) es).toList.map
        fun x => (nameOf x.1, x.2))).marks := by
  rcases hb with rfl | ⟨opening, messages, closing, rfl, ho, hm, hc⟩
  · cases h
    rfl
  · obtain ⟨first, last, rfl, hfirst, hlast⟩ := h.split
    cases hfirst with
    | @cons _ a _ mid hopen hmid =>
      cases hlast with
      | @cons _ b _ _ hclose hnil =>
        cases hnil
        have hpass : passes args a = true := passes_of_sound (fun _ => ho) hopen
        have hpush : (arm a.type).pushes = true := by rw [hopen.type]; exact ho.pushes
        have hpop : arm b.type = .popState := by rw [hclose.type]; exact hc
        have hspan : spanOf ((opening :: messages ++ [closing]).head?.map Record.type)
            (a :: mid ++ [b]) = some (a.type, a.timestamp, b.timestamp) := by
          have hmem : (a :: mid ++ [b]).getLast? = some b := List.getLast?_concat
          rw [spanOf, hmem]
          exact congrArg (fun type => some (type, a.timestamp, b.timestamp)) hopen.type.symm
        rw [hspan, List.cons_append, List.flatMap_cons, List.flatMap_append, shown_messages hm hmid,
          List.nil_append, marksOf_append, shown_push hs hpass hpush, List.flatMap_cons,
          List.flatMap_nil, List.append_nil, shown_pop hs hpop]
        rfl

/-- **The calls of a process show their spans**, `MPI_Finalize` the last one. -/
theorem marks_calls (hs : args.noStates = false) (tr : Library) (cs : List Call) {es : List Event}
    (h : List.Forall₂ (Event.Decodes id) ((runCalls tr cs).flatten ++ mpiFinalize.records) es) :
    marksOf (es.flatMap (shown args)) =
      (Calls.flat ((spans (brackets tr cs) es).map fun x => (nameOf x.1, x.2))).marks := by
  induction cs generalizing tr es with
  | nil =>
    cases h with
    | @cons _ a _ rest hin hrest =>
      cases hrest with
      | @cons _ b _ _ hout hnil =>
        cases hnil
        have hopens := opens_plain (arm_opening mpiFinalizeIn (by simp)) [] []
        have hpass : passes args a = true := passes_of_sound (fun _ => hopens) hin
        have hpush : (arm a.type).pushes = true := by rw [hin.type]; exact hopens.pushes
        have hfinal : arm b.type = .finalizeOut := by rw [hout.type]; decide +kernel
        have hleave : marksOf (shown args b) = [.leave b.timestamp] := by
          simp only [shown, hfinal, hs]
          rfl
        have htype : a.type = mpiFinalizeIn := hin.type
        rw [List.flatMap_cons, List.flatMap_cons, List.flatMap_nil, List.append_nil, marksOf_append,
          shown_push hs hpass hpush, hleave, htype]
        rfl
  | cons c cs ih =>
    rw [runCalls, List.flatten_cons, List.append_assoc] at h
    obtain ⟨mine, rest, rfl, hmine, hrest⟩ := h.split
    have hlen : (c.run tr).1.length = mine.length := hmine.length_eq
    rw [marksOf_shown_append, marks_bracket hs (call_bracketed tr c) hmine, ih _ hrest,
      c.run_opens tr, ← marks_flat_append, ← List.map_append, brackets, spans, hlen,
      List.take_left, List.drop_left]

/-- **States and links are of types that a process may have.** -/
theorem shows_inner {e : Event} {ps : List Paje} (h : Shows args e ps) {p : Paje} (hp : p ∈ ps)
    (hinner : isInner p = true) : p.line.Inner akyTypes sProcess := by
  have hstate := state_of_wrote h.wrote hp
  have hmem : (sState, sProcess) ∈ akyTypes.states := by decide
  cases p with
  | createContainer t a ty c n => cases hinner
  | destroyContainer t ty n => cases hinner
  | pushState t c ty v u =>
    obtain rfl := hstate ty rfl
    exact hmem
  | popState t c ty =>
    obtain rfl := hstate ty rfl
    exact hmem
  | startLink t c ty s v k u =>
    obtain ⟨entry, heq⟩ := h.link_mem hp rfl
    rw [heq]
    exact (entryPaje_under entry).1
  | endLink t c ty d v k =>
    obtain ⟨entry, heq⟩ := h.link_mem hp rfl
    rw [heq]
    exact (entryPaje_under entry).1

/-- Without states, nothing is shown. -/
theorem marks_noStates (hs : args.noStates = true) (es : List Event) :
    marksOf (es.flatMap (shown args)) = [] := by
  induction es with
  | nil => rfl
  | cons e es ih =>
    have hnone : marksOf (shown args e) = [] := by
      unfold shown
      simp only [hs, if_true]
      cases arm e.type <;> rfl
    rw [List.flatMap_cons, marksOf_append, hnone, ih]
    rfl

/-- What a rank's states should show. -/
def shownStates (args : Arguments) (cs : List Call) (mine : List Event) : Calls ℚ Str :=
  if args.noStates then .done else shownCalls cs mine

/-- **What a rank's container is read as**: from its first event to its last, under the root, with
    its calls. -/
def rankLife (args : Arguments) (id : UInt64) (cs : List Call) (mine : List Event)
    (first last : Event) : Life Str ℚ :=
  .gone ⟨sProcess, sRoot, mpiProcess id, first.timestamp, ⟨[], shownStates args cs mine⟩⟩
    last.timestamp

/-- The events of a stream are an `MPI_INIT`, the calls, and the end of `MPI_Finalize`. -/
theorem stream_events {cs : List Call} {mine : List Event}
    (h : List.Forall₂ (Event.Decodes id) (stream cs) mine) :
    ∃ first rest before last, mine = first :: rest ∧ rest = before ++ [last] ∧
      arm first.type = .init ∧ arm last.type = .finalizeOut ∧
      List.Forall₂ (Event.Decodes id)
        ((runCalls Library.init cs).flatten ++ mpiFinalize.records) rest := by
  have h : List.Forall₂ (Event.Decodes id)
      (rstEvent mpiInit :: ((runCalls Library.init cs).flatten ++ mpiFinalize.records)) mine := h
  cases h with
  | @cons _ first _ rest hinit hrest =>
    obtain ⟨calls, fin, rfl, -, hfin⟩ := hrest.split
    cases hfin with
    | @cons _ a _ _ hin hout =>
      cases hout with
      | @cons _ last _ _ hlast hnil =>
        cases hnil
        refine ⟨first, calls ++ [a, last], calls ++ [a], last, rfl, by simp, ?_, ?_, hrest⟩
        · rw [hinit.type]
          decide +kernel
        · rw [hlast.type]
          decide +kernel

/-- **The lines of a rank are read as its life.** -/
theorem rank_read {cs : List Call} {mine : List Event} {owns : List (List Paje)}
    (hdec : List.Forall₂ (Event.Decodes id) (stream cs) mine)
    (howns : List.Forall₂ (Shows args) mine owns) :
    ∃ first last, mine.head? = some first ∧ mine.getLast? = some last ∧
      Life.absent.run akyTypes (owns.flatten.map Paje.line) =
        some (rankLife args id cs mine first last) := by
  obtain ⟨first, rest, before, last, rfl, rfl, hinit, hfinal, hrest⟩ := stream_events hdec
  refine ⟨first, last, rfl, by rw [← List.cons_append]; exact List.getLast?_concat, ?_⟩
  -- the shape of the rank's lines
  obtain ⟨t, t', inner, hshape, hquiet⟩ : Lifecycle (mpiProcess id) owns.flatten :=
    rounds_stream (hdec.comp (howns.imp fun _ _ => Shows.wrote))
  have hplain := plain_shows howns
  have hid : first.id1 = id := by
    cases hdec with
    | cons hd _ => exact hd.id1
  have hfirst : shown args first =
      [.createContainer first.timestamp (mpiProcess id) sProcess sRoot (mpiProcess id)] := by
    simp only [shown, hinit, hid]
  rw [hshape, List.flatMap_cons, hfirst, List.cons_append, List.singleton_append] at hplain
  have hhead : Converter.plain (.createContainer t (mpiProcess id) sProcess sRoot (mpiProcess id) ::
      (inner ++ [.destroyContainer t' sProcess (mpiProcess id)])) =
      .createContainer t (mpiProcess id) sProcess sRoot (mpiProcess id) ::
        (plain inner ++ [.destroyContainer t' sProcess (mpiProcess id)]) := by
    rw [← List.singleton_append, plain_append, plain_append]
    rfl
  rw [hhead] at hplain
  obtain ⟨hcreate, hbody⟩ := List.cons.inj hplain
  -- when it begins and ends
  have ht : t = first.timestamp := by
    injection hcreate
  have ht' : t' = last.timestamp := by
    have hlast := congrArg List.getLast? hbody
    have hshown : ∃ ps, shown args last = ps ++
        [.destroyContainer last.timestamp sProcess (mpiProcess last.id1)] := by
      simp only [shown, hfinal]
      exact ⟨_, rfl⟩
    obtain ⟨ps, hps⟩ := hshown
    rw [List.flatMap_append, List.flatMap_cons, List.flatMap_nil, List.append_nil, hps,
      ← List.append_assoc, List.getLast?_concat, List.getLast?_concat] at hlast
    injection Option.some.inj hlast
  -- what its states show
  have hmarks : marksOf inner = (shownStates args cs (first :: (before ++ [last]))).marks := by
    have hall := congrArg marksOf hbody
    rw [marksOf_append, marksOf_plain] at hall
    rw [show marksOf [Paje.destroyContainer t' sProcess (mpiProcess id)] = [] from rfl,
      List.append_nil] at hall
    rw [hall, shownStates]
    cases hs : args.noStates with
    | true => exact marks_noStates hs _
    | false => exact marks_calls hs Library.init cs hrest
  have hinner : ∀ line ∈ inner.map Paje.line, line.Inner akyTypes sProcess := by
    intro line hline
    obtain ⟨p, hp, rfl⟩ := List.mem_map.mp hline
    have hmem : p ∈ owns.flatten := by rw [hshape]; simp [hp]
    obtain ⟨ps, hps, hp'⟩ := List.mem_flatten.mp hmem
    obtain ⟨e, -, hshows⟩ := howns.exists_of_mem_right hps
    exact shows_inner hshows hp' (hquiet.inner p hp)
  have hwhole := @Life.run_whole Str ℚ _ akyTypes sProcess sRoot (mpiProcess id) (mpiProcess id)
    first.timestamp last.timestamp _ _ hinner (by rw [List.filterMap_map]; exact hmarks)
  rw [hshape, ht, ht', List.map_append, List.map_cons]
  exact hwhole

/-! ## The whole trace -/

variable {n : Nat} {procs : Nat → List Call} {es : List Event}

/-- The lines of one container among what rounds wrote. -/
theorem lines_filter (ps : List Paje) (c : Str) :
    (ps.map Paje.line).filter (fun line => line.container = some c) =
      (ps.filter fun p => p.container = c).map Paje.line := by
  rw [List.filter_map]
  congr 1
  refine List.filter_congr fun p _ => ?_
  simp [container_line]

/-- What the rounds of one rank wrote. -/
theorem shows_ofRank {owns : List (List Paje)} (howns : List.Forall₂ (Shows args) es owns)
    {r : Nat} (hr64 : r < 2 ^ 64) :
    ∃ yss, List.Forall₂ (Shows args) (ofRank es r) yss ∧
      owns.flatten.filter (fun p => p.container = mpiProcess (.ofNat r)) = yss.flatten := by
  refine howns.filter (fun e ps hs he p hp => ?_) fun e ps hs he p hp => ?_
  · rw [decide_eq_true_eq] at he ⊢
    rw [hs.wrote.container p hp, ← he, UInt64.ofNat_toNat]
  · rw [decide_eq_false_iff_not] at he ⊢
    rw [hs.wrote.container p hp]
    intro hc
    refine he ?_
    rw [mpiProcess_inj hc, UInt64.toNat_ofNat']
    exact Nat.mod_eq_of_lt hr64

/-- Every rank of a merge has events, so its number is one of 64 bits. -/
theorem Merged.rank_lt (h : Merged n (fun r => stream (procs r)) es) {r : Nat} (hr : r < n) :
    r < 2 ^ 64 := by
  have hstream := h.streams r hr
  cases hes : ofRank es r with
  | nil => rw [hes] at hstream; cases hstream
  | cons e _ =>
    have he : e ∈ ofRank es r := by rw [hes]; exact List.mem_cons_self
    have hid : e.id1.toNat = r := by simpa using (List.mem_filter.mp he).2
    exact hid ▸ e.id1.toNat_lt

/-- The process survives every event of a merge. -/
theorem Merged.passes (h : Merged n (fun r => stream (procs r)) es) (args : Arguments) :
    ∀ e ∈ es, Converter.passes args e = true := by
  intro e he
  obtain ⟨record, hrecord, hd⟩ := h.mem he
  exact passes_of_sound (stream_sound _ record hrecord) hd

/-- **What is read of a converted program.** -/
structure ReadAs (args : Arguments) (n : Nat) (procs : Nat → List Call) (es : List Event)
    (w : World Str ℚ) : Prop where
  /-- Each rank has a container, with its calls. -/
  ranks : ∀ r < n, ∃ first last, (ofRank es r).head? = some first ∧
    (ofRank es r).getLast? = some last ∧ w.life (mpiProcess (.ofNat r)) =
      rankLife args (.ofNat r) (procs r) (ofRank es r) first last
  /-- The root is there from the first event to the last, -/
  root : ∃ first last, es.head? = some first ∧ es.getLast? = some last ∧
    w.life sRoot = .gone (Box.fresh sROOT sZero sRoot first.timestamp) last.timestamp
  /-- and nothing else is. -/
  others : ∀ c, c ≠ sRoot → (∀ r < n, c ≠ mpiProcess (.ofNat r)) → w.life c = .absent

/-- What is written without `--dummy`, when the run is not cut short. -/
theorem lines_of_trace {options : Options} {size : Option Nat} (hdummy : options.dummy = false)
    {trace : List Paje} (htrace : (convert options.toArguments size es).trace = trace) :
    lines options size es = akyPajeHierarchy.map Definition.line ++ trace.map Paje.line := by
  rw [lines, output, hdummy, if_neg Bool.false_ne_true, List.map_append, List.map_map,
    List.map_map, htrace]
  rfl

/-- The trace of a program is accepted, and read as the program. -/
theorem convert_readAs (options : Options) (size : Option Nat) (hn : 0 < n)
    (hmerge : Merged n (fun r => stream (procs r)) es) (htime : ∀ e ∈ es, 0 ≤ e.timestamp)
    (hdummy : options.dummy = false)
    (hquiet : options.ignoreErrors = true ∨
      (convert options.toArguments size es).reports = []) :
    ∃ w, (World.start sZero).run (lines options size es) = some w ∧
      ReadAs options.toArguments n procs es w := by
  have hpass := hmerge.passes options.toArguments
  cases es with
  | nil =>
    have hstream := hmerge.streams 0 hn
    cases hstream
  | cons e es =>
    have hinit := merge_head hmerge
    obtain ⟨-, owns, howns, htrace⟩ :=
      convert_shows options.toArguments size hinit hpass htime hquiet
    -- the lines of each container
    have hrank : ∀ r < n, ∃ first last, (ofRank (e :: es) r).head? = some first ∧
        (ofRank (e :: es) r).getLast? = some last ∧
        Life.absent.run akyTypes ((owns.flatten.map Paje.line).filter
          fun line => line.container = some (mpiProcess (.ofNat r))) =
        some (rankLife options.toArguments (.ofNat r) (procs r) (ofRank (e :: es) r) first last) := by
      intro r hr
      obtain ⟨yss, hyss, heq⟩ := shows_ofRank howns (hmerge.rank_lt hr)
      obtain ⟨first, last, hfirst, hlast, hread⟩ := rank_read (hmerge.streams r hr) hyss
      exact ⟨first, last, hfirst, hlast, by rw [lines_filter, heq, hread]⟩
    have hother : ∀ c, (∀ r < n, c ≠ mpiProcess (.ofNat r)) →
        (owns.flatten.map Paje.line).filter (fun line => line.container = some c) = [] := by
      intro c hc
      rw [lines_filter, List.map_eq_nil_iff, List.filter_eq_nil_iff]
      intro p hp
      obtain ⟨ps, hps, hp'⟩ := List.mem_flatten.mp hp
      obtain ⟨e', he', hshows⟩ := howns.exists_of_mem_right hps
      rw [decide_eq_true_eq, hshows.wrote.container p hp']
      intro heq
      refine hc e'.id1.toNat (hmerge.ranks e' he') ?_
      rw [UInt64.ofNat_toNat, heq]
    have hlives : ∀ c, ∃ life, Life.absent.run akyTypes ((owns.flatten.map Paje.line).filter
        fun line => line.container = some c) = some life := by
      intro c
      by_cases hc : ∃ r < n, c = mpiProcess (.ofNat r)
      · obtain ⟨r, hr, rfl⟩ := hc
        obtain ⟨first, last, -, -, hread⟩ := hrank r hr
        exact ⟨_, hread⟩
      · rw [hother c fun r hr heq => hc ⟨r, hr, heq⟩]
        exact ⟨.absent, rfl⟩
    choose f hf using hlives
    have hunder : ∀ line ∈ owns.flatten.map Paje.line,
        line.Under akyTypes sZero sRoot sROOT := by
      intro line hline
      obtain ⟨p, hp, rfl⟩ := List.mem_map.mp hline
      obtain ⟨ps, hps, hp'⟩ := List.mem_flatten.mp hp
      obtain ⟨e', -, hshows⟩ := howns.exists_of_mem_right hps
      exact hshows.under p hp'
    have hrun := @World.run_rooted Str ℚ _ akyWorld sRoot sROOT sRoot e.timestamp
      ((e :: es).getLast (List.cons_ne_nil e es)).timestamp _ f (by decide) sRoot_ne_sZero rfl
      hunder hf
    obtain ⟨g, hg⟩ : ∃ g, g = Function.update f sRoot (Life.gone (Box.fresh sROOT sZero sRoot
        e.timestamp) ((e :: es).getLast (List.cons_ne_nil e es)).timestamp) := ⟨_, rfl⟩
    refine ⟨⟨sZero, akyTypes, g⟩, ?_, ?_, ?_, ?_⟩
    · rw [lines_of_trace hdummy htrace, World.run_append, run_hierarchy, Option.bind_some,
        List.map_append, List.map_cons, hg]
      exact hrun
    · intro r hr
      obtain ⟨first, last, hfirst, hlast, hread⟩ := hrank r hr
      refine ⟨first, last, hfirst, hlast, ?_⟩
      show g (mpiProcess (.ofNat r)) = _
      rw [hg, Function.update_of_ne (mpiProcess_ne_root _)]
      exact Option.some.inj ((hf _).symm.trans hread)
    · refine ⟨e, _, rfl, List.getLast?_eq_some_getLast (List.cons_ne_nil e es), ?_⟩
      show g sRoot = _
      rw [hg, Function.update_self]
    · intro c hroot hc
      show g c = _
      rw [hg, Function.update_of_ne hroot]
      have hnone := hf c
      rw [hother c hc] at hnone
      exact (Option.some.inj hnone).symm

/-! ## In the order of time -/

/-- The lines of a round are at its event's time. -/
theorem time_of_shows {args : Arguments} {e : Event} {ps : List Paje} (h : Shows args e ps) :
    ∀ p ∈ ps, p.line.time = some e.timestamp := by
  intro p hp
  have hlink : p.isLink = true → p.line.time = some e.timestamp := by
    intro hlink
    obtain ⟨entry, rfl⟩ := h.link_mem hp hlink
    cases entry with
    | push l key =>
      show (startLink e l.1.keys key).line.time = some e.timestamp
      unfold startLink linksizemark
      split
      split <;> rfl
    | pop l ans => rfl
  have hwrote := h.wrote
  unfold Wrote at hwrote
  cases ha : arm e.type with
  | init =>
    simp only [ha] at hwrote
    rw [hwrote, List.mem_singleton] at hp
    rw [hp]
    rfl
  | pushState | pushStateSend | pushStateRecv =>
    simp only [ha] at hwrote
    split at hwrote
    · rw [hwrote] at hp
      exact absurd hp List.not_mem_nil
    · obtain ⟨v, u, hwrote⟩ := hwrote
      rw [hwrote, List.mem_singleton] at hp
      rw [hp]
      rfl
  | popState =>
    simp only [ha] at hwrote
    rw [hwrote] at hp
    cases hs : args.noStates <;> simp [hs] at hp
    rw [hp]
    rfl
  | finalizeOut =>
    simp only [ha] at hwrote
    rw [hwrote] at hp
    rcases List.mem_append.mp hp with hp | hp
    · cases hs : args.noStates <;> simp [hs] at hp
      rw [hp]
      rfl
    · rw [List.mem_singleton.mp hp]
      rfl
  | skip =>
    simp only [ha] at hwrote
    rw [hwrote] at hp
    exact absurd hp List.not_mem_nil
  | _ =>
    simp only [ha] at hwrote
    exact hlink (hwrote p hp).1

/-- The times of what rounds wrote, in the order of the events. -/
theorem times_shows {args : Arguments} {es : List Event} {owns : List (List Paje)}
    (h : List.Forall₂ (Shows args) es owns)
    (ho : es.Pairwise fun a b => a.timestamp ≤ b.timestamp) :
    ((owns.flatten.map Paje.line).filterMap Line.time).Pairwise (· ≤ ·) ∧
      ∀ t ∈ (owns.flatten.map Paje.line).filterMap Line.time, ∃ e ∈ es, e.timestamp = t := by
  induction h with
  | nil => exact ⟨List.Pairwise.nil, fun t ht => absurd ht List.not_mem_nil⟩
  | @cons e ps es owns hshows _ ih =>
    obtain ⟨hhead, htail⟩ := List.pairwise_cons.mp ho
    obtain ⟨hpair, hmem⟩ := ih htail
    have htimes : ∀ t ∈ (ps.map Paje.line).filterMap Line.time, t = e.timestamp := by
      intro t ht
      obtain ⟨line, hline, htime⟩ := List.mem_filterMap.mp ht
      obtain ⟨p, hp, rfl⟩ := List.mem_map.mp hline
      rw [time_of_shows hshows p hp] at htime
      exact (Option.some.inj htime).symm
    rw [List.flatten_cons, List.map_append, List.filterMap_append]
    refine ⟨List.pairwise_append.mpr ⟨?_, hpair, ?_⟩, ?_⟩
    · exact List.pairwise_of_forall_mem_list fun t ht t' ht' => by rw [htimes t ht, htimes t' ht']
    · intro t ht t' ht'
      obtain ⟨e', he', rfl⟩ := hmem t' ht'
      rw [htimes t ht]
      exact hhead e' he'
    · intro t ht
      rcases List.mem_append.mp ht with ht | ht
      · exact ⟨e, List.mem_cons_self, (htimes t ht).symm⟩
      · obtain ⟨e', he', rfl⟩ := hmem t ht
        exact ⟨e', List.mem_cons_of_mem _ he', rfl⟩

/-- A converted program is written in the order of time. -/
theorem convert_ordered {options : Options} {size : Option Nat} (hn : 0 < n)
    (hmerge : Merged n (fun r => stream (procs r)) es) (htime : ∀ e ∈ es, 0 ≤ e.timestamp)
    (hdummy : options.dummy = false)
    (hquiet : options.ignoreErrors = true ∨ (convert options.toArguments size es).reports = [])
    (ho : es.Pairwise fun a b => a.timestamp ≤ b.timestamp) :
    ((lines options size es).filterMap Line.time).Pairwise (· ≤ ·) := by
  have hpass := hmerge.passes options.toArguments
  cases es with
  | nil =>
    have hstream := hmerge.streams 0 hn
    cases hstream
  | cons e es =>
    obtain ⟨-, owns, howns, htrace⟩ :=
      convert_shows options.toArguments size (merge_head hmerge) hpass htime hquiet
    obtain ⟨hpair, hmem⟩ := times_shows howns ho
    obtain ⟨last, hlast⟩ : ∃ last, last = (e :: es).getLast (List.cons_ne_nil e es) := ⟨_, rfl⟩
    have hbefore : ∀ x ∈ e :: es, x.timestamp ≤ last.timestamp := by
      intro x hx
      obtain ⟨init, hinit⟩ : ∃ init, e :: es = init ++ [last] :=
        ⟨_, by rw [hlast]; exact (List.dropLast_append_getLast _).symm⟩
      rw [hinit] at hx ho
      rcases List.mem_append.mp hx with hx | hx
      · exact (List.pairwise_append.mp ho).2.2 x hx last (by simp)
      · rw [List.mem_singleton.mp hx]
    have hheader : (akyPajeHierarchy.map (Definition.line (τ := ℚ))).filterMap Line.time = [] := rfl
    rw [lines_of_trace hdummy htrace, List.filterMap_append, hheader, List.nil_append, ← hlast,
      List.map_append, List.map_cons, List.filterMap_append]
    refine List.pairwise_append.mpr ⟨List.pairwise_cons.mpr ⟨?_, hpair⟩,
      List.pairwise_singleton _ _, ?_⟩
    · intro t ht
      obtain ⟨x, hx, rfl⟩ := hmem t ht
      rcases List.mem_cons.mp hx with rfl | hx
      · exact le_refl _
      · exact (List.pairwise_cons.mp ho).1 x hx
    · intro t ht t' ht'
      rw [List.mem_singleton.mp ht']
      rcases List.mem_cons.mp ht with rfl | ht
      · exact hbefore e List.mem_cons_self
      · obtain ⟨x, hx, rfl⟩ := hmem t ht
        exact hbefore x hx

/-- **The trace shows the program.** For any processes, any merge of their streams, any flags but
    `--dummy` and any size of the key table, what the converter writes is accepted from its first
    line to its last, and every rank is read as its own calls, as long as no receive misses its key
    or misses are ignored. When the events come in the order of time, so do the lines, and every
    call is within its rank's life and over before the next. -/
theorem calls_read (options : Options) (size : Option Nat) (hn : 0 < n)
    (hmerge : Merged n (fun r => stream (procs r)) es) (htime : ∀ e ∈ es, 0 ≤ e.timestamp)
    (hdummy : options.dummy = false)
    (hquiet : options.ignoreErrors = true ∨
      (convert options.toArguments size es).reports = []) :
    ∃ w, (World.start sZero).run (lines options size es) = some w ∧
      ReadAs options.toArguments n procs es w ∧
      ((es.Pairwise fun a b => a.timestamp ≤ b.timestamp) →
        ((lines options size es).filterMap Line.time).Pairwise (· ≤ ·) ∧
        ∀ r < n, ∃ first last, (ofRank es r).head? = some first ∧
          (ofRank es r).getLast? = some last ∧
          (shownStates options.toArguments (procs r) (ofRank es r)).Timed first.timestamp
            last.timestamp) := by
  obtain ⟨w, hrun, hread⟩ := convert_readAs options size hn hmerge htime hdummy hquiet
  refine ⟨w, hrun, hread, fun ho => ?_⟩
  have hordered := convert_ordered hn hmerge htime hdummy hquiet ho
  refine ⟨hordered, fun r hr => ?_⟩
  obtain ⟨first, last, hfirst, hlast, hlife⟩ := hread.ranks r hr
  exact ⟨first, last, hfirst, hlast, World.timed_of_run hrun
    (hordered.sublist (List.filter_sublist.filterMap Line.time)) hlife rfl⟩

/-- The barrier of two ranks, converted and read. -/
theorem calls_read_barrier :
    ∃ w, (World.start sZero).run (lines ⟨⟨true, false, false⟩, false, false⟩ none (events barrier)) =
      some w ∧ ReadAs ⟨true, false, false⟩ 2 (fun _ => [.plain ⟨mpiBarrier, by decide⟩])
        (events barrier) w ∧ ((lines ⟨⟨true, false, false⟩, false, false⟩ none
        (events barrier)).filterMap Line.time).Pairwise (· ≤ ·) := by
  have hmerge : Merged 2 (fun _ => stream [.plain ⟨mpiBarrier, by decide⟩]) (events barrier) :=
    merged_events (by decide) (by decide)
  have htime : ∀ e ∈ events barrier, 0 ≤ e.timestamp := by
    intro e he
    obtain ⟨m, hm, rfl⟩ := List.mem_map.mp he
    have hall : ∀ m ∈ barrier, 0 ≤ m.2.1 := by decide
    exact hall m hm
  have ho : (events barrier).Pairwise fun a b => a.timestamp ≤ b.timestamp :=
    List.pairwise_map.mpr (by decide)
  obtain ⟨w, hrun, hread, hordered⟩ := calls_read ⟨⟨true, false, false⟩, false, false⟩ none
    (by decide) hmerge htime rfl (Or.inl rfl)
  exact ⟨w, hrun, hread, (hordered ho).1⟩

/-! ## Back to the calls -/

/-- The number with a name. -/
def numberOf (name : Str) : Option Nat :=
  (mpiNames.find? fun x => x.2.toList = name).map Prod.fst

/-- **The calls of a rank, from the trace**, as the numbers of their first records. -/
def readWrappers (trace : List (Line Str ℚ)) (c : Str) : Option (List Nat) := do
  let w ← (World.start sZero).run trace
  (w.life c).calls.names.mapM numberOf

/-- The bytes of a name, as one number. -/
def bytesOf (name : String) : Nat :=
  name.toByteArray.data.toList.foldl (fun n b => n * 256 + b.toNat) 0

/-- **The names are distinct.** -/
theorem names_inj {x y : Nat × String} (hx : x ∈ mpiNames) (hy : y ∈ mpiNames)
    (h : x.2.toList = y.2.toList) : x = y := by
  -- numbers are compared faster than texts
  have hnodup : (mpiNames.map fun x => bytesOf x.2).Nodup := by decide +kernel
  exact List.inj_on_of_nodup_map hnodup hx hy (by rw [String.toList_injective h])

theorem numberOf_nameOf {type : Nat} (h : (nameGet type).isSome = true) :
    numberOf (nameOf type) = some type := by
  obtain ⟨name, hname⟩ := Option.isSome_iff_exists.mp h
  obtain ⟨text, htext, rfl⟩ := Option.map_eq_some_iff.mp hname
  have hmem : (type, text) ∈ mpiNames := by
    obtain ⟨before, after, hsplit, -⟩ := List.lookup_eq_some_iff.mp htext
    rw [hsplit]
    simp
  rw [nameOf, hname, numberOf]
  cases hfind : mpiNames.find? fun x => x.2.toList = (some text.toList).getD [] with
  | none => simpa using List.find?_eq_none.mp hfind _ hmem
  | some y =>
    have hy := List.find?_some hfind
    rw [names_inj (List.mem_of_find?_eq_some hfind) hmem (by simpa using hy)]
    rfl

/-- Every call has a name. -/
theorem nameGet_opens {c : Call} {type : Nat} (h : c.opens = some type) :
    (nameGet type).isSome = true := by
  have hopening : ∀ t ∈ [mpiBcastIn, mpiGatherIn, mpiReduceIn, mpiScatterIn, mpiBsendIn,
      mpiIbsendIn, mpiIrsendIn, mpiIsendIn, mpiIssendIn, mpiRsendIn, mpiSendIn, mpiSsendIn,
      mpiRecvIn, mpiIrecvIn, mpiWaitIn, mpiWaitallIn, mpiWaitanyIn],
      (nameGet t).isSome = true := by
    decide +kernel
  cases c with
  | plain b =>
    cases h
    exact nameGet_isSome (by rw [(arm_plainCalls b.1 b.2).1]; rfl)
  | getProcessorName => cases h
  | _ =>
    cases h
    exact hopening _ (by simp)

/-- A call that records anything is shown with its number. -/
theorem numbers_spanOf {tr : Library} {c : Call} {mine : List Event}
    (h : (c.run tr).1.length = mine.length) :
    (spanOf c.opens mine).toList.map Prod.fst = c.opens.toList := by
  have hopens := c.run_opens tr
  cases hrs : (c.run tr).1 with
  | nil =>
    rw [hrs] at hopens
    rw [← hopens]
    rfl
  | cons record records =>
    rw [hrs] at hopens h
    rw [← hopens]
    cases mine with
    | nil => cases h
    | cons e mine =>
      obtain ⟨last, hlast⟩ : ∃ last, (e :: mine).getLast? = some last :=
        ⟨_, List.getLast?_eq_some_getLast (List.cons_ne_nil e mine)⟩
      rw [spanOf, hlast]
      rfl

/-- **The numbers of a process's calls.** -/
theorem numbers_spans (tr : Library) (cs : List Call) {es : List Event}
    (h : es.length = ((runCalls tr cs).flatten ++ mpiFinalize.records).length) :
    (spans (brackets tr cs) es).map Prod.fst = cs.filterMap Call.opens ++ [mpiFinalizeIn] := by
  induction cs generalizing tr es with
  | nil =>
    obtain ⟨a, b, rfl⟩ := List.length_eq_two.mp h
    rfl
  | cons c cs ih =>
    rw [runCalls, List.flatten_cons, List.append_assoc, List.length_append] at h
    have hmine : (c.run tr).1.length = (es.take (c.run tr).1.length).length := by
      rw [List.length_take]
      omega
    have hrest : (es.drop (c.run tr).1.length).length =
        ((runCalls (c.run tr).2 cs).flatten ++ mpiFinalize.records).length := by
      rw [List.length_drop]
      omega
    have hone : (c :: cs).filterMap Call.opens = c.opens.toList ++ cs.filterMap Call.opens := by
      rw [List.filterMap_cons]
      cases c.opens <;> rfl
    rw [brackets, spans, List.map_append, numbers_spanOf hmine, ih _ hrest, hone, List.append_assoc]

theorem numbersOf_names {types : List Nat} (h : ∀ type ∈ types, (nameGet type).isSome = true) :
    (types.map nameOf).mapM numberOf = some types := by
  induction types with
  | nil => rfl
  | cons type types ih =>
    rw [List.map_cons, List.mapM_cons, numberOf_nameOf (h type List.mem_cons_self),
      ih fun t ht => h t (List.mem_cons_of_mem _ ht)]
    rfl

/-- **The calls of every rank can be read back from the trace**: which wrappers it went through
    between `MPI_Init` and `MPI_Finalize`, in order. (`MPI_Get_processor_name` records nothing.) -/
theorem wrappers_read (options : Options) (size : Option Nat)
    (hmerge : Merged n (fun r => stream (procs r)) es) (htime : ∀ e ∈ es, 0 ≤ e.timestamp)
    (hdummy : options.dummy = false) (hstates : options.noStates = false)
    (hquiet : options.ignoreErrors = true ∨
      (convert options.toArguments size es).reports = []) {r : Nat} (hr : r < n) :
    readWrappers (lines options size es) (mpiProcess (.ofNat r)) =
      some ((procs r).filterMap Call.opens ++ [mpiFinalizeIn]) := by
  obtain ⟨w, hrun, hread⟩ :=
    convert_readAs options size (Nat.zero_lt_of_lt hr) hmerge htime hdummy hquiet
  obtain ⟨first, last, -, -, hlife⟩ := hread.ranks r hr
  obtain ⟨_, rest, _, _, hmine, -, -, -, hrest⟩ := stream_events (hmerge.streams r hr)
  have hnumbers : (timedCalls (procs r) (ofRank es r)).map Prod.fst =
      (procs r).filterMap Call.opens ++ [mpiFinalizeIn] := by
    rw [timedCalls, hmine]
    exact numbers_spans _ _ hrest.length_eq.symm
  have hnames : (w.life (mpiProcess (.ofNat r))).calls.names =
      ((procs r).filterMap Call.opens ++ [mpiFinalizeIn]).map nameOf := by
    rw [hlife, ← hnumbers, List.map_map]
    show (shownStates options.toArguments (procs r) (ofRank es r)).names = _
    rw [shownStates, hstates, if_neg Bool.false_ne_true, shownCalls, Calls.names_flat, List.map_map]
    rfl
  rw [readWrappers, hrun]
  show (w.life (mpiProcess (.ofNat r))).calls.names.mapM numberOf = _
  rw [hnames]
  refine numbersOf_names fun type ht => ?_
  rcases List.mem_append.mp ht with ht | ht
  · obtain ⟨c, -, hc⟩ := List.mem_filterMap.mp ht
    exact nameGet_opens hc
  · rw [List.mem_singleton.mp ht]
    decide +kernel

/-- The barrier of two ranks, from its trace. -/
theorem wrappers_read_barrier :
    readWrappers (lines ⟨⟨true, false, false⟩, false, false⟩ none (events barrier))
      (mpiProcess 1) = some [mpiBarrierIn, mpiFinalizeIn] := by
  have hmerge : Merged 2 (fun _ => stream [.plain ⟨mpiBarrier, by decide⟩]) (events barrier) :=
    merged_events (by decide) (by decide)
  have htime : ∀ e ∈ events barrier, 0 ≤ e.timestamp := by
    intro e he
    obtain ⟨m, hm, rfl⟩ := List.mem_map.mp he
    have hall : ∀ m ∈ barrier, 0 ≤ m.2.1 := by decide
    exact hall m hm
  exact wrappers_read ⟨⟨true, false, false⟩, false, false⟩ none hmerge htime rfl rfl (Or.inl rfl)
    (r := 1) (by decide)

end System
end Akypuera

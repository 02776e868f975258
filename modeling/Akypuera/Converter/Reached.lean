import Akypuera.Converter.Matched
import Akypuera.Converter.Pairing
import Akypuera.Keys.Capacity

/-!
# How far a run gets

Two things end the loop before the stream does: an event the process dies on, and, unless
errors are ignored, a receive that finds no key; the loop then finishes that event and takes no
other. Whether a receive finds a key depends on the sends before it that the key table had room
for, so **the events a run takes can be told from the stream and the size of the table**
(`reached`, `convert_rounds`), and so can the log of its links (`convert_log`).

The trace shows that log entry by entry (`trace_shown`): a `StartLink` for a send and an
`EndLink` for a receive, each with its key.
-/

set_option autoImplicit false

namespace Akypuera
namespace Converter

open CText Code Keys Fifo

/-! ## Missing keys -/

/-- Individual operations as they are filed. -/
def filing (rs : List (Req Link)) : List (Req Triple) := rs.map (Req.rekey Link.triple)

theorem req_reqOp (rs : List (Req Link)) : (rs.map reqOp).map Op.req = filing rs := by
  rw [List.map_map]
  exact List.map_congr_left fun r _ => by cases r <;> rfl

theorem reqOp_fits (rs : List (Req Link)) : ∀ op ∈ rs.map reqOp, op.triple.Fits := by
  intro op hop
  obtain ⟨r, _, rfl⟩ := List.mem_map.mp hop
  cases r <;> exact Link.fits _

/-- The log of individual operations on a fresh store with a table for `cap` entries. -/
def freshLog (cap : Option Nat) (rs : List (Req Link)) : List (Entry Link Str) :=
  linkLog (KeyStore.init cap) rs

/-- The same as it is filed, without the puts that came to nothing. -/
def keptLog (cap : Option Nat) (rs : List (Req Link)) : List (Entry Triple Str) :=
  kept ((freshLog cap rs).map (Entry.rekey Link.triple))

/-- **What is left of the log is a log of FIFO queues**, on the operations the table admits. -/
theorem keptLog_spec (cap : Option Nat) (rs : List (Req Link)) :
    (keptLog cap rs).map Entry.req = admitted cap [] (filing rs) ∧
      Serves Queues.empty (keptLog cap rs) ∧
      allPushed (keptLog cap rs) =
        (stamps (putKeys (admitted cap [] (filing rs)))).map stampKey := by
  have hspec := (opened_init cap).kept_log (KeyStore.tracks_init cap) (reqOp_fits rs)
  rw [req_reqOp] at hspec
  rw [keptLog, freshLog, linkLog_rekey]
  exact hspec

theorem mem_keptLog {cap : Option Nat} {rs : List (Req Link)} {k : Triple} {ans : Option Str} :
    .pop k ans ∈ keptLog cap rs ↔ ∃ l, .pop l ans ∈ freshLog cap rs ∧ Link.triple l = k := by
  rw [keptLog, kept, List.mem_filter, List.mem_map]
  constructor
  · rintro ⟨⟨entry, hmem, heq⟩, -⟩
    cases entry with
    | push l key => exact absurd heq (by simp [Entry.rekey])
    | pop l ans' => cases heq; exact ⟨l, hmem, rfl⟩
  · rintro ⟨l, hmem, rfl⟩
    exact ⟨⟨_, hmem, rfl⟩, rfl⟩

/-- **No receive misses its key exactly where there is enough**, counting the sends that the
    table admits. -/
theorem missed_iff (cap : Option Nat) (rs : List (Req Link)) :
    (freshLog cap rs).any Missed = false ↔ Enough (admitted cap [] (filing rs)) := by
  obtain ⟨hreq, hserves, -⟩ := keptLog_spec cap rs
  rw [← hreq, ← hserves.forall_isSome_iff, List.any_eq_false]
  constructor
  · intro hmiss k ans hmem
    obtain ⟨l, hl, -⟩ := mem_keptLog.mp hmem
    cases ans with
    | some key => rfl
    | none => exact absurd rfl (hmiss _ hl)
  · intro hsome entry hmem hmiss
    cases entry with
    | push l key => exact absurd hmiss (by simp [Missed])
    | pop l ans =>
      cases ans with
      | some key => exact absurd hmiss (by simp [Missed])
      | none => exact absurd (hsome _ none (mem_keptLog.mpr ⟨l, hmem, rfl⟩)) (by simp)

/-! ## The events a run takes -/

/-- The loop goes on after the events `es`. -/
def goesOn (args : Arguments) (cap : Option Nat) (es : List Event) : Bool :=
  args.noLinks || args.ignoreErrors || decide (Enough (admitted cap [] (filedReqs es)))

/-- The events of `es` that the loop takes when it has taken `before`. -/
def reachedFrom (args : Arguments) (cap : Option Nat) (before : List Event) :
    List Event → List Event
  | [] => []
  | e :: es =>
      if passes args e then
        e :: if goesOn args cap (before ++ [e]) then reachedFrom args cap (before ++ [e]) es else []
      else []

/-- The events of a stream that the loop takes, when the key table has `cap` entries. -/
def reached (args : Arguments) (cap : Option Nat) (es : List Event) : List Event :=
  reachedFrom args cap [] es

variable {args : Arguments} {cap : Option Nat}

/-- The state a run is in after the events `before`. -/
structure After (args : Arguments) (cap : Option Nat) (before : List Event) (st : State) :
    Prop where
  keys : args.noLinks = false →
    st.keys = (KeyStore.init cap).final ((before.flatMap individual).map reqOp)
  fail : st.fail = !goesOn args cap before

/-- A round without links leaves the store and `fail` alone. -/
theorem step_noLinks (hl : args.noLinks = true) (st : State) {e : Event}
    (hp : passes args e = true) :
    ∃ res, step args st e = some res ∧ res.1.keys = st.keys ∧ res.1.fail = st.fail := by
  cases hlink : (arm e.type).isLink with
  | true => exact ⟨_, by rw [step_link st hlink, if_pos hl], rfl, rfl⟩
  | false => exact step_other st hlink hp

theorem goesOn_iff (hl : args.noLinks = false) (before : List Event) :
    goesOn args cap before =
      (args.ignoreErrors || !(freshLog cap (before.flatMap individual)).any Missed) := by
  have hmiss := missed_iff cap (before.flatMap individual)
  rw [goesOn, hl, Bool.false_or]
  refine congrArg (args.ignoreErrors || ·) ?_
  rw [Bool.eq_iff_iff, decide_eq_true_iff, Bool.not_eq_true', hmiss]
  rfl

/-- **One round** of a run. -/
theorem After.step {before : List Event} {st : State} {e : Event}
    (h : After args cap before st) (hgo : goesOn args cap before = true)
    (hp : passes args e = true) :
    ∃ st' outs, Converter.step args st e = some (st', outs) ∧
      After args cap (before ++ [e]) st' ∧
      (args.noLinks = false → readLinks (individual e) outs = linkLog st.keys (individual e)) := by
  cases hl : args.noLinks with
  | true =>
    obtain ⟨⟨st', outs⟩, hstep, -, hfail⟩ := step_noLinks hl st hp
    refine ⟨st', outs, hstep, ⟨fun hno => absurd (hl.symm.trans hno) (by simp), ?_⟩,
      fun hno => absurd hno (by simp)⟩
    exact hfail.trans (h.fail.trans (by simp [goesOn, hl]))
  | false =>
    obtain ⟨⟨st', outs⟩, hstep, hkeys, hread, hfail⟩ := step_performed hl st hp
    have hst := h.keys hl
    refine ⟨st', outs, hstep, ⟨fun _ => ?_, ?_⟩, fun _ => hread⟩
    · rw [hkeys, hst, List.flatMap_append, List.map_append, KeyStore.final_append]
      simp
    · have hlog : freshLog cap ((before ++ [e]).flatMap individual) =
          freshLog cap (before.flatMap individual) ++ linkLog st.keys (individual e) := by
        rw [hst, List.flatMap_append, freshLog, linkLog_append]
        simp [freshLog]
      rw [goesOn_iff hl] at hgo
      rw [hfail, h.fail, goesOn_iff hl, goesOn_iff hl, hlog, List.any_append, hgo]
      cases hi : args.ignoreErrors with
      | true => rfl
      | false =>
        rw [hi] at hgo
        simp only [Bool.false_or, Bool.not_eq_true'] at hgo
        simp [hgo]

/-- **A run takes the events it reaches**, and its links are the log of their operations. -/
theorem After.loop {before : List Event} {st : State} (h : After args cap before st)
    (hgo : goesOn args cap before = true) (es : List Event) :
    (Converter.loop args st es).rounds.map Prod.fst = reachedFrom args cap before es ∧
      (args.noLinks = false → (Converter.loop args st es).links =
        linkLog st.keys ((reachedFrom args cap before es).flatMap individual)) := by
  induction es generalizing before st with
  | nil => exact ⟨rfl, fun _ => rfl⟩
  | cons e es ih =>
    have hfail : st.fail = false := by rw [h.fail, hgo]; rfl
    rw [reachedFrom]
    cases hp : passes args e with
    | false =>
      have hdead : Converter.loop args st (e :: es) = { rounds := [], state := st, died := true } := by
        simp [Converter.loop, hfail, step_eq_none hp]
      rw [hdead]
      exact ⟨rfl, fun _ => rfl⟩
    | true =>
      obtain ⟨st', outs, hstep, hafter, hread⟩ := h.step hgo hp
      rw [loop_cons es hfail hstep, if_pos rfl]
      cases hgo' : goesOn args cap (before ++ [e]) with
      | false =>
        -- the flag is up, and the loop looks at it before the next event
        have hstop : Converter.loop args st' es = { rounds := [], state := st', died := false } := by
          have hup : st'.fail = true := by rw [hafter.fail, hgo']; rfl
          cases es with
          | nil => rfl
          | cons e' es => simp [Converter.loop, hup]
        rw [hstop]
        refine ⟨rfl, ?_⟩
        intro hl
        simp [RunOf.links, hread hl]
      | true =>
        obtain ⟨hrounds, hlinks⟩ := ih hafter hgo'
        rw [if_pos rfl]
        refine ⟨by simp [hrounds], ?_⟩
        intro hl
        have hkeys : st'.keys = st.keys.final ((individual e).map reqOp) := by
          rw [hafter.keys hl, h.keys hl, List.flatMap_append, List.map_append,
            KeyStore.final_append]
          simp
        rw [List.flatMap_cons, linkLog_append, ← hkeys, ← hlinks hl, ← hread hl]
        rfl

theorem goesOn_nil : goesOn args cap [] = true := by
  simp [goesOn, filedReqs, admitted, Enough]

theorem after_init : After args cap [] (State.init cap) :=
  ⟨fun _ => rfl, by rw [goesOn_nil]; rfl⟩

theorem convert_rounds (args : Arguments) (cap : Option Nat) (es : List Event) :
    (convert args cap es).rounds.map Prod.fst = reached args cap es :=
  (after_init.loop goesOn_nil es).1

theorem convert_log (hl : args.noLinks = false) (cap : Option Nat) (es : List Event) :
    (convert args cap es).links = freshLog cap ((reached args cap es).flatMap individual) :=
  (after_init.loop goesOn_nil es).2 hl

/-! ## Runs that reach everything -/

theorem reachedFrom_initial (before es : List Event) :
    reachedFrom args cap before es <+: taken args es := by
  induction es generalizing before with
  | nil => exact List.prefix_rfl
  | cons e es ih =>
    unfold reachedFrom taken
    cases hp : passes args e with
    | false => simp
    | true =>
      rw [if_pos rfl, List.takeWhile_cons_of_pos hp, List.cons_prefix_cons]
      refine ⟨rfl, ?_⟩
      split
      · exact ih _
      · exact List.nil_prefix

theorem filedReqs_append (es es' : List Event) :
    filedReqs (es ++ es') = filedReqs es ++ filedReqs es' := by
  simp [filedReqs]

/-- Where there is enough for all that is reached, everything is. -/
theorem reachedFrom_eq {before es : List Event}
    (h : args.noLinks = true ∨ args.ignoreErrors = true ∨
      Enough (admitted cap [] (filedReqs (before ++ reachedFrom args cap before es)))) :
    reachedFrom args cap before es = taken args es := by
  induction es generalizing before with
  | nil => rfl
  | cons e es ih =>
    rw [reachedFrom] at h ⊢
    cases hp : passes args e with
    | false => simp [taken, hp]
    | true =>
      rw [hp, if_pos rfl] at h
      rw [if_pos rfl, taken, List.takeWhile_cons_of_pos hp]
      have hgo : goesOn args cap (before ++ [e]) = true := by
        rw [goesOn]
        rcases h with hl | hi | he
        · simp [hl]
        · simp [hi]
        · rw [List.append_cons, filedReqs_append, admitted_append] at he
          simp [he.of_append]
      rw [if_pos hgo] at h ⊢
      rw [ih (by simpa using h), taken]

theorem reached_eq_taken {es : List Event}
    (h : args.noLinks = true ∨ args.ignoreErrors = true ∨
      Enough (admitted cap [] (filedReqs (reached args cap es)))) :
    reached args cap es = taken args es := reachedFrom_eq h

/-- **Enough for all that is reached is enough for all there is.** -/
theorem enough_reached_iff (es : List Event) :
    Enough (admitted cap [] (filedReqs (reached args cap es))) ↔
      Enough (admitted cap [] (filedReqs (taken args es))) := by
  constructor
  · intro he
    rwa [reached_eq_taken (Or.inr (Or.inr he))] at he
  · intro he
    obtain ⟨rest, hrest⟩ := @reachedFrom_initial args cap [] es
    rw [← hrest, filedReqs_append, admitted_append] at he
    exact he.of_append

/-! ## The rounds of a run -/

/-- Every round of a run was one step. -/
theorem loop_step (es : List Event) (st : State) :
    ∀ round ∈ (Converter.loop args st es).rounds,
      ∃ before after : State, Converter.step args before round.1 = some (after, round.2) := by
  induction es generalizing st with
  | nil => exact fun round h => absurd h (by simp [Converter.loop])
  | cons e es ih =>
    intro round hround
    unfold Converter.loop at hround
    split at hround
    · exact absurd hround (by simp)
    · split at hround
      · exact absurd hround (by simp)
      · rename_i st' outs hstep
        rcases List.mem_cons.mp hround with rfl | hround
        · exact ⟨st, st', hstep⟩
        · exact ih st' round hround

theorem convert_step (args : Arguments) (cap : Option Nat) (es : List Event) :
    ∀ round ∈ (convert args cap es).rounds,
      ∃ before after : State, Converter.step args before round.1 = some (after, round.2) :=
  loop_step es _

/-- A step that is taken is survived. -/
theorem passes_of_step {st st' : State} {e : Event} {outs : List Out}
    (h : Converter.step args st e = some (st', outs)) : passes args e = true := by
  by_contra hp
  rw [step_eq_none (by simpa using hp)] at h
  exact absurd h (by simp)

/-- With `no_links` a run writes no link and reports nothing. -/
theorem convert_noLinks (hl : args.noLinks = true) (cap : Option Nat) (es : List Event) :
    ∀ round ∈ (convert args cap es).rounds,
      (pajes round.2).filter Paje.isLink = [] ∧ reports round.2 = [] := by
  rintro ⟨e, outs⟩ hround
  obtain ⟨st, st', hstep⟩ := convert_step args cap es _ hround
  cases hlink : (arm e.type).isLink with
  | true =>
    rw [step_link st hlink, if_pos hl] at hstep
    cases hstep
    exact ⟨rfl, rfl⟩
  | false =>
    obtain ⟨res, hres, hround⟩ := step_round st (passes_of_step hstep)
    rw [hstep] at hres
    cases hres
    obtain ⟨ps, hwrote, hps⟩ := hround.trace
    refine ⟨?_, hround.quiet hlink⟩
    rw [hps, List.filter_append, hwrote.no_links hlink]
    split <;> rfl

/-! ## What the trace shows of the log -/

/-- The key of a link event: of its start, or of its end. -/
def Paje.key : Paje → Option (Str ⊕ Str)
  | .startLink _ _ _ _ _ key _ => some (.inl key)
  | .endLink _ _ _ _ _ key => some (.inr key)
  | _ => none

/-- The key an entry shows in the trace. -/
def shownKey : Entry Link Str → Str ⊕ Str
  | .push _ key => .inl key
  | .pop _ ans => .inr (ans.getD [])

theorem key_entryPaje (e : Event) (entry : Entry Link Str) :
    (entryPaje e entry).key = some (shownKey entry) := by
  cases entry with
  | push l key =>
    show (startLink e l.1.keys key).key = _
    unfold startLink linksizemark
    split
    split <;> rfl
  | pop l ans => rfl

theorem key_of_not_isLink {p : Paje} (h : p.isLink = false) : p.key = none := by
  cases p <;> first | rfl | exact absurd h (by simp [Paje.isLink])

theorem filterMap_key (ps : List Paje) :
    ps.filterMap Paje.key = (ps.filter Paje.isLink).filterMap Paje.key := by
  rw [List.filterMap_filter]
  apply List.filterMap_congr
  intro p _
  cases hlink : p.isLink with
  | true => rfl
  | false => simpa using key_of_not_isLink hlink

/-- A round shows the keys of its part of the log. -/
theorem LinkRound.shown {round : Event × List Out} (h : LinkRound round) :
    (pajes round.2).filterMap Paje.key =
      (readLinks (individual round.1) round.2).map shownKey := by
  rw [filterMap_key, h.links, List.filterMap_map, ← List.filterMap_eq_map]
  exact List.filterMap_congr fun entry _ => key_entryPaje _ _

/-- **The keys in the trace are those of the log**, in order. -/
theorem trace_shown {r : Run} (h : ∀ round ∈ r.rounds, LinkRound round) :
    r.trace.filterMap Paje.key = r.links.map shownKey := by
  have hround : (pajes (r.rounds.flatMap Prod.snd)).filterMap Paje.key =
      (r.rounds.flatMap fun round => readLinks (individual round.1) round.2).map shownKey := by
    generalize r.rounds = rounds at h
    induction rounds with
    | nil => rfl
    | cons round rounds ih =>
      rw [List.flatMap_cons, pajes_append, List.filterMap_append, List.flatMap_cons,
        List.map_append, ih fun x hx => h x (by simp [hx]), (h round (by simp)).shown]
  rw [RunOf.trace_eq, RunOf.outs, pajes_append, List.filterMap_append, hround]
  split <;> simp [pajes, Paje.key, RunOf.links]

theorem convert_linkRound (hl : args.noLinks = false) (cap : Option Nat) (es : List Event) :
    ∀ round ∈ (convert args cap es).rounds, LinkRound round := loop_linkRound hl es _

theorem convert_shown (hl : args.noLinks = false) (cap : Option Nat) (es : List Event) :
    (convert args cap es).trace.filterMap Paje.key =
      (freshLog cap ((reached args cap es).flatMap individual)).map shownKey := by
  rw [trace_shown (convert_linkRound hl cap es), convert_log hl]

end Converter
end Akypuera

import Akypuera.Converter.Capacity
import Akypuera.Converter.Shown
import Akypuera.Lib.Arrows

/-!
# The arrows of a trace

A reader of the trace joins a `StartLink` and an `EndLink` by their key and draws an arrow
(`arrows`); a `StartLink` without a key starts none. What is at the two ends, keys apart, depends on
the events alone. For a run that is not cut short and misses nothing, the log of the key store is
`Complete`, and **each of its queues joins the sends of its triple, in order, with the receives of
its triple, in order** (`joined_drawing`), whether or not the table had room for other triples.
-/

set_option autoImplicit false

namespace Akypuera
namespace Converter

open CText Code Keys Fifo

/-- The end of an arrow that an event draws, its key apart. -/
def Paje.linkEnd : Paje → Option (End Str Paje Paje)
  | startLink t container type source value key user =>
      if key = [] then none
      else some (.start key (.startLink t container type source value [] user))
  | endLink t container type dest value key =>
      some (.finish key (.endLink t container type dest value []))
  | _ => none

/-- **The arrows of a trace.** -/
def arrows (trace : List Paje) : List (Paje × Paje) := drawn [] (trace.filterMap Paje.linkEnd)

/-- The link of an individual operation. -/
def reqLink : Req Link → Link
  | .put l | .take l => l

/-- The link of an entry. -/
def entryLink (entry : Entry Link Str) : Link := reqLink entry.req

/-- The log of a run, as it is filed, each entry with its event and its link. -/
def RunOf.drawing (r : Run) : List ((Event × Link) × Entry Triple Str) :=
  r.rounds.flatMap fun round => (readLinks (individual round.1) round.2).map fun entry =>
    ((round.1, entryLink entry), entry.rekey Link.triple)

/-- The same without the puts that came to nothing. -/
def RunOf.kept (r : Run) : List ((Event × Link) × Entry Triple Str) :=
  r.drawing.filter fun x => !refused x.2

/-- The individual operations of events, as they are filed, each with its event and its link. -/
def asked (es : List Event) : List ((Event × Link) × Req Triple) :=
  es.flatMap fun e => (individual e).map fun req => ((e, reqLink req), req.rekey Link.triple)

/-- What a start looks like, -/
def startDrawn (x : (Event × Link) × Triple) : Paje := startLink x.1.1 x.1.2.1.keys []

/-- and what an end does. -/
def endDrawn (x : (Event × Link) × Triple) : Paje := endLink x.1.1 x.1.2.1.keys []

variable {args : Arguments} {es : List Event} {r : Run}

/-- The end that is drawn for an entry of the log. -/
theorem linkEnd_entry (e : Event) {entry : Entry Link Str} (h : Missed entry = false)
    (hkept : refused entry = false) : (entryPaje e entry).linkEnd =
      (Entry.end_ ((e, entryLink entry), entry.rekey Link.triple)).map
        (End.map startDrawn endDrawn) := by
  cases entry with
  | push l key =>
    have hkey : key ≠ [] := by
      rintro rfl
      cases hkept
    show (startLink e l.1.keys key).linkEnd = some (.start key (startLink e l.1.keys []))
    unfold startLink linksizemark
    split
    split <;> simp [Paje.linkEnd, hkey]
  | pop l ans =>
    cases ans with
    | none => cases h
    | some key => rfl

theorem linkEnd_refused (e : Event) {entry : Entry Link Str} (h : refused entry = true) :
    (entryPaje e entry).linkEnd = none := by
  cases entry with
  | push l key =>
    cases key with
    | cons c key => cases h
    | nil =>
      show (startLink e l.1.keys []).linkEnd = none
      unfold startLink linksizemark
      split
      split <;> rfl
  | pop l ans => cases h

theorem linkEnd_of_not_isLink {p : Paje} (h : p.isLink = false) : p.linkEnd = none := by
  cases p <;> simp [Paje.isLink, Paje.linkEnd] at h ⊢

/-- Only links are ends. -/
theorem filterMap_linkEnd (ps : List Paje) :
    ps.filterMap Paje.linkEnd = (ps.filter Paje.isLink).filterMap Paje.linkEnd := by
  rw [List.filterMap_filter]
  refine List.filterMap_congr fun p _ => ?_
  cases hp : p.isLink with
  | true => rfl
  | false => exact linkEnd_of_not_isLink hp

/-- The ends that the entries of one round draw. -/
theorem linkEnds_round (e : Event) {log : List (Entry Link Str)} (h : log.any Missed = false) :
    (log.map (entryPaje e)).filterMap Paje.linkEnd =
      (ends ((log.map fun entry => ((e, entryLink entry), entry.rekey Link.triple)).filter
        fun x => !refused x.2)).map (End.map startDrawn endDrawn) := by
  induction log with
  | nil => rfl
  | cons entry log ih =>
    rw [List.any_cons, Bool.or_eq_false_iff] at h
    have hrefused : refused (entry.rekey Link.triple) = refused entry := by
      cases entry with
      | push l key => cases key <;> rfl
      | pop l ans => rfl
    rw [List.map_cons, List.map_cons, List.filterMap_cons, ih h.2]
    cases hr : refused entry with
    | true =>
      rw [linkEnd_refused e hr, List.filter_cons_of_neg (by simp [hrefused, hr])]
    | false =>
      rw [linkEnd_entry e h.1 hr, List.filter_cons_of_pos (by simp [hrefused, hr]), ends, ends,
        List.filterMap_cons]
      cases Entry.end_ ((e, entryLink entry), entry.rekey Link.triple) <;> rfl

/-- **The ends of a trace** are those of its log, when nothing is missed. -/
theorem linkEnds_trace (hlink : ∀ round ∈ r.rounds, LinkRound round)
    (hmiss : r.links.any Missed = false) :
    r.trace.filterMap Paje.linkEnd = (ends r.kept).map (End.map startDrawn endDrawn) := by
  have hfinal : r.trace.filterMap Paje.linkEnd =
      (pajes (r.rounds.flatMap Prod.snd)).filterMap Paje.linkEnd := by
    rw [RunOf.trace_eq, RunOf.outs, pajes_append, List.filterMap_append]
    split <;> simp [pajes, Paje.linkEnd]
  rw [hfinal]
  unfold RunOf.links at hmiss
  unfold RunOf.kept RunOf.drawing
  generalize r.rounds = rounds at hlink hmiss
  induction rounds with
  | nil => rfl
  | cons round rounds ih =>
    rw [List.flatMap_cons, List.any_append, Bool.or_eq_false_iff] at hmiss
    rw [List.flatMap_cons, pajes_append, List.filterMap_append,
      ih (fun round' h => hlink round' (List.mem_cons_of_mem _ h)) hmiss.2, List.flatMap_cons,
      List.filter_append, ends_append, List.map_append, filterMap_linkEnd,
      (hlink round List.mem_cons_self).links, linkEnds_round _ hmiss.1]

/-- **The arrows of a trace** are those of its log. -/
theorem arrows_trace (hlink : ∀ round ∈ r.rounds, LinkRound round)
    (hmiss : r.links.any Missed = false) :
    arrows r.trace = (drawn [] (ends r.kept)).map fun p => (startDrawn p.1, endDrawn p.2) := by
  rw [arrows, linkEnds_trace hlink hmiss]
  exact drawn_map startDrawn endDrawn [] (ends r.kept)

/-! ## The log is complete -/

theorem map_snd_drawing (r : Run) :
    r.drawing.map Prod.snd = r.links.map (Entry.rekey Link.triple) := by
  rw [RunOf.drawing, RunOf.links, List.map_flatMap, List.map_flatMap]
  refine List.flatMap_congr fun round _ => ?_
  rw [List.map_map]
  rfl

theorem map_snd_kept (r : Run) :
    r.kept.map Prod.snd = Keys.kept (r.links.map (Entry.rekey Link.triple)) := by
  rw [← map_snd_drawing, RunOf.kept, Keys.kept, List.filter_map]
  rfl

/-- The operations of a run are those of its events. -/
theorem asked_drawing (hlink : ∀ round ∈ r.rounds, LinkRound round) :
    (r.drawing.map fun x => (x.1, x.2.req)) = asked (r.rounds.map Prod.fst) := by
  rw [RunOf.drawing, asked, List.flatMap_map, List.map_flatMap]
  refine List.flatMap_congr fun round hround => ?_
  have hreq := (hlink round hround).req
  rw [List.map_map, ← hreq, List.map_map, hreq]
  refine List.map_congr_left fun entry _ => ?_
  simp [entryLink]

theorem map_snd_asked (es : List Event) :
    (asked es).map Prod.snd = filing (es.flatMap individual) := by
  rw [asked, filing, List.map_flatMap, List.map_flatMap]
  refine List.flatMap_congr fun e _ => ?_
  rw [List.map_map]
  rfl

/-- The run took every event, and every receive found its key. -/
structure Undisturbed (es : List Event) (r : Run) : Prop where
  rounds : r.rounds.map Prod.fst = es
  links : r.links.any Missed = false

/-- A receive that misses its key is reported. -/
theorem missed_of_reports {rs : List (Req Link)} {outs : List Out} (h : reports outs = []) :
    (readLinks rs outs).any Missed = false := by
  fun_induction readLinks rs outs with
  | case1 l rs _ _ _ _ _ key _ outs ih => exact ih h
  | case2 l rs text _ _ _ _ _ _ outs ih => cases h
  | case3 l rs _ _ _ _ _ key outs ih => exact ih h
  | case4 => rfl

/-- **No report, no miss.** -/
theorem undisturbed {cap : Option Nat} (hpass : ∀ e ∈ es, passes args e = true)
    (hquiet : (convert args cap es).reports = []) : Undisturbed es (convert args cap es) := by
  have hreports : reports ((convert args cap es).rounds.flatMap Prod.snd) = [] := by
    rw [RunOf.reports, RunOf.outs, reports_append, List.append_eq_nil_iff] at hquiet
    exact hquiet.1
  refine ⟨loop_rounds es hpass rfl (Or.inr hreports), ?_⟩
  rw [RunOf.links]
  generalize (convert args cap es).rounds = rounds at hreports
  induction rounds with
  | nil => rfl
  | cons round rounds ih =>
    rw [List.flatMap_cons, reports_append, List.append_eq_nil_iff] at hreports
    rw [List.flatMap_cons, List.any_append, ih hreports.2, missed_of_reports hreports.1]
    rfl

theorem length_putKeys_le {κ : Type} {rs rs' : List (Req κ)} (h : rs.Sublist rs') :
    (putKeys rs).length ≤ (putKeys rs').length := by
  induction h with
  | slnil => exact Nat.le_refl 0
  | cons r _ ih => cases r <;> simp only [putKeys, List.length_cons] <;> omega
  | cons_cons r _ ih => cases r <;> simp only [putKeys, List.length_cons] <;> omega

section
variable {cap : Option Nat} (hl : args.noLinks = false)
  (h : Undisturbed es (convert args cap es))
include hl h

theorem Undisturbed.kept_eq :
    (convert args cap es).kept.map Prod.snd = keptLog cap (es.flatMap individual) := by
  have hreached := h.rounds
  rw [convert_rounds] at hreached
  rw [map_snd_kept, convert_log hl, hreached]
  rfl

theorem Undisturbed.asked_eq :
    ((convert args cap es).drawing.map fun x => (x.1, x.2.req)) = asked es := by
  rw [asked_drawing (convert_linkRound hl cap es), h.rounds]

/-- **The log of a run that misses nothing is complete.** -/
theorem Undisturbed.complete
    (hsends : (putKeys (filing (es.flatMap individual))).length ≤ 2 ^ 64) :
    Complete (convert args cap es).kept := by
  obtain ⟨-, hserves, hkeys⟩ := keptLog_spec cap (es.flatMap individual)
  refine ⟨by rwa [h.kept_eq hl], fun c k ans hmem => ?_, ?_⟩
  · have hdrawing := (List.mem_filter.mp hmem).1
    have hsnd := List.mem_map_of_mem (f := Prod.snd) hdrawing
    rw [map_snd_drawing] at hsnd
    obtain ⟨entry, hentry, heq⟩ := List.mem_map.mp hsnd
    cases entry with
    | push l key => cases heq
    | pop l ans' =>
      cases heq
      cases ans with
      | some key => rfl
      | none => exact absurd h.links (by simpa using ⟨_, hentry, rfl⟩)
  · rw [h.kept_eq hl, hkeys]
    refine (nodup_stampsFrom 0 ?_).map stampKey_injective
    exact (length_putKeys_le (admitted_sublist cap [] _)).trans hsends

/-- **Each queue joins the sends of its triple with the receives of its triple**, both in the order
    of the events. -/
theorem Undisturbed.joined_kept
    (hsends : (putKeys (filing (es.flatMap individual))).length ≤ 2 ^ 64) (k : Triple) :
    joined k ((convert args cap es).kept.map fun x => (x.1, x.2.req)) = joined k (asked es) := by
  have hcomplete := h.complete hl hsends
  obtain ⟨hreq, hserves, -⟩ := keptLog_spec cap (es.flatMap individual)
  obtain ⟨kept, hkept⟩ : ∃ kept, kept = (convert args cap es).kept := ⟨_, rfl⟩
  -- the receives are all there
  have htakes : takeTags k (kept.map fun x => (x.1, x.2.req)) = takeTags k (asked es) := by
    rw [← h.asked_eq hl, hkept, RunOf.kept, takeTags, takeTags, List.filterMap_map,
      List.filterMap_map, List.filterMap_filter]
    refine List.filterMap_congr fun x _ => ?_
    obtain ⟨c, entry⟩ := x
    cases entry with
    | push k' key => cases key <;> rfl
    | pop k' ans => rfl
  -- and the sends are, or none of them
  have hsub : (putTags k (kept.map fun x => (x.1, x.2.req))).Sublist (putTags k (asked es)) := by
    rw [← h.asked_eq hl, hkept]
    exact ((List.filter_sublist.map _).filterMap _)
  have hputs : (putTags k (kept.map fun x => (x.1, x.2.req))).length =
      (admitted cap [] (filing (es.flatMap individual))).count (.put k) := by
    rw [length_putTags, List.map_map, ← hreq, ← h.kept_eq hl, hkept, List.map_map]
    rfl
  have hall : (putTags k (asked es)).length =
      (filing (es.flatMap individual)).count (.put k) := by
    rw [length_putTags, map_snd_asked]
  rw [← hkept, joined, joined, htakes]
  rcases count_admitted cap [] (filing (es.flatMap individual)) k with hcount | hcount
  · rw [hsub.eq_of_length (by rw [hputs, hall, hcount])]
  · have hnone : takeTags k (kept.map fun x => (x.1, x.2.req)) = [] := by
      by_contra hne
      obtain ⟨c, hc⟩ := List.exists_mem_of_ne_nil _ hne
      obtain ⟨x, hx, heq⟩ := List.mem_map.mp (mem_takeTags.mp hc)
      obtain ⟨c', entry⟩ := x
      cases entry with
      | push k' key => cases heq
      | pop k' ans =>
        cases heq
        obtain ⟨v, rfl⟩ := Option.isSome_iff_exists.mp
          (hcomplete.some c' k ans (hkept ▸ hx))
        have hmem : Entry.pop k (some v) ∈ kept.map Prod.snd := List.mem_map_of_mem hx
        obtain ⟨pre, post, hsplit⟩ := List.append_of_mem hmem
        have hserves' := hcomplete.serves
        rw [← hkept, hsplit] at hserves'
        have hpushed := hserves'.pushed_before
        have hlen : (pushed k (kept.map Prod.snd)).length = 0 := by
          rw [length_pushed, hkept, h.kept_eq hl, hreq, hcount]
        have hempty := List.length_eq_zero_iff.mp hlen
        rw [hsplit, pushed_append, List.append_eq_nil_iff] at hempty
        rw [hempty.1] at hpushed
        exact absurd hpushed List.not_mem_nil
    rw [← htakes, hnone, List.zip_nil_right, List.zip_nil_right]

end

end Converter
end Akypuera

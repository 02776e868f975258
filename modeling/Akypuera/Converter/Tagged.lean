import Akypuera.Converter.Rounds

/-!
# Runs over tagged events

To say which links a run *should* have made, each event gets a tag: the call it was recorded
in, or the number of its message. The tags are nothing the converter knows; they only name
the entries of its log (`RunOf.tagged`), so that the law of keyed queues with tags applies to a
run of the converter.

What is read off a run are the two ends of its links, with the tag of the event they were
written for: `RunOf.starts` and `RunOf.ends`.
-/

set_option autoImplicit false

namespace Akypuera
namespace Converter

open CText Code Keys Fifo

variable {τ : Type}

/-- The container and the key of a `StartLink`. -/
def Paje.start : Paje → Option (Str × Str)
  | .startLink _ _ _ source _ key _ => some (source, key)
  | _ => none

/-- The container and the key of an `EndLink`. -/
def Paje.end_ : Paje → Option (Str × Str)
  | .endLink _ _ _ dest _ key => some (dest, key)
  | _ => none

/-- The `StartLink`s of a run, with the tags of the events they were written for. -/
def RunOf.starts {σ : Type} (tags : List τ) (r : RunOf σ) : List (τ × Str × Str) :=
  (tags.zip r.rounds).flatMap fun x => ((pajes x.2.2).filterMap Paje.start).map (x.1, ·)

/-- The `EndLink`s of a run, with the tags of the events they were written for. -/
def RunOf.ends {σ : Type} (tags : List τ) (r : RunOf σ) : List (τ × Str × Str) :=
  (tags.zip r.rounds).flatMap fun x => ((pajes x.2.2).filterMap Paje.end_).map (x.1, ·)

/-- The log of a run, with tags. -/
def RunOf.tagged (tags : List τ) (r : Run) : List (τ × Entry Link Str) :=
  (tags.zip r.rounds).flatMap fun x => (readLinks (individual x.2.1) x.2.2).map (x.1, ·)

/-- The individual operations of tagged events. -/
def requests (tes : List (τ × Event)) : List (τ × Req Link) :=
  tes.flatMap fun te => (individual te.2).map (te.1, ·)

/-- A round wrote its event's links, reads back as its individual operations, and reported
    nothing but missing keys. -/
structure LinkRound (round : Event × List Out) : Prop where
  req : (readLinks (individual round.1) round.2).map Entry.req = individual round.1
  links : (pajes round.2).filter Paje.isLink =
    (readLinks (individual round.1) round.2).map (entryPaje round.1)
  quiet : (readLinks (individual round.1) round.2).any Missed = false → reports round.2 = []

variable {args : Arguments}

theorem step_linkRound (hl : args.noLinks = false) {st st' : State} {e : Event} {outs : List Out}
    (h : step args st e = some (st', outs)) : LinkRound (e, outs) := by
  have hp : passes args e = true := by
    by_contra hp
    rw [step_eq_none (by simpa using hp)] at h
    exact absurd h (by simp)
  obtain ⟨res, hres, _, hread, _⟩ := step_performed hl st hp
  rw [h] at hres
  cases hres
  simp only at hread
  have hreq : (readLinks (individual e) outs).map Entry.req = individual e := by
    rw [hread, linkLog_req]
  cases hlink : (arm e.type).isLink with
  | true =>
    have hperf : Performed args e (reporter e) (individual e)
        { st with timestamp := e.timestamp } _ := stepLinks_performed _
    rw [step_link st hlink, hl] at h
    have houts : outs = (stepLinks args { st with timestamp := e.timestamp } e).2 :=
      (congrArg Prod.snd (Option.some.inj h)).symm
    refine ⟨hreq, ?_, ?_⟩
    · show (pajes outs).filter _ = (readLinks (individual e) outs).map _
      rw [hread, houts, hperf.outs, pajes_written]
      apply List.filter_eq_self.mpr
      intro p hp
      obtain ⟨entry, _, rfl⟩ := List.mem_map.mp hp
      exact (entryPaje_link entry).1
    · intro hmiss
      show reports outs = []
      rw [houts, hperf.outs]
      exact reports_written_eq_nil (by rw [← hread]; exact hmiss)
  | false =>
    obtain ⟨res, hres, hround⟩ := step_round st hp
    rw [h] at hres
    cases hres
    obtain ⟨ps, hwrote, hps⟩ := hround.trace
    refine ⟨hreq, ?_, fun _ => hround.quiet hlink⟩
    simp only at hps
    rw [hread, individual_eq_nil hlink]
    have hroot : (pajes outs).filter Paje.isLink = ps.filter Paje.isLink := by
      rw [hps, List.filter_append]
      split <;> rfl
    rw [hroot, hwrote.no_links hlink]
    rfl

theorem loop_linkRound (hl : args.noLinks = false) (es : List Event) (st : State) :
    ∀ round ∈ (loop args st es).rounds, LinkRound round := by
  induction es generalizing st with
  | nil => exact fun round h => absurd h (by simp [loop])
  | cons e es ih =>
    intro round hround
    unfold loop at hround
    split at hround
    · exact absurd hround (by simp)
    · split at hround
      · exact absurd hround (by simp)
      · rename_i st' outs hstep
        rcases List.mem_cons.mp hround with rfl | hround
        · exact step_linkRound hl hstep
        · exact ih st' round hround

/-! ## Reading the tagged log -/

/-- The rank that sends or receives. -/
def actor : Req Link → UInt64
  | .put l => l.2.1
  | .take l => l.2.2

/-- An event's links are sent or received by its own rank. -/
theorem actor_individual {e : Event} {r : Req Link} (h : r ∈ individual e) : actor r = e.id1 := by
  unfold individual at h
  cases ha : arm e.type with
  | oneTxSend f | xt1Recv f =>
    simp only [ha] at h
    obtain ⟨rank, _, rfl⟩ := List.mem_map.mp h
    rfl
  | ptpSend | ptpRecv | xt1Send f | oneTxRecv f =>
    simp only [ha, List.mem_singleton] at h
    rw [h]
    rfl
  | _ =>
    simp only [ha] at h
    exact absurd h (by simp)

variable {r : Run} {tags : List τ}

theorem tagged_log (hlen : tags.length = r.rounds.length) :
    (r.tagged tags).map Prod.snd = r.links := by
  unfold RunOf.tagged RunOf.links
  generalize r.rounds = rounds at hlen
  induction tags generalizing rounds with
  | nil =>
    rw [List.length_nil] at hlen
    rw [List.eq_nil_of_length_eq_zero hlen.symm]; rfl
  | cons t tags ih =>
    cases rounds with
    | nil => exact absurd hlen (by simp)
    | cons round rounds =>
      simp only [List.zip_cons_cons, List.flatMap_cons, List.map_append, List.map_map]
      rw [ih rounds (by simpa using hlen)]
      simp [Function.comp_def]

theorem tagged_requests (hrounds : ∀ round ∈ r.rounds, LinkRound round) :
    (r.tagged tags).map (fun x => (x.1, x.2.req)) =
      requests (tags.zip (r.rounds.map Prod.fst)) := by
  unfold RunOf.tagged requests
  generalize r.rounds = rounds at hrounds
  induction tags generalizing rounds with
  | nil => rfl
  | cons t tags ih =>
    cases rounds with
    | nil => rfl
    | cons round rounds =>
      have hround := (hrounds round (by simp)).req
      simp only [List.zip_cons_cons, List.flatMap_cons, List.map_append, List.map_map,
        List.map_cons]
      rw [ih rounds fun x hx => hrounds x (by simp [hx])]
      have hhead : (readLinks (individual round.1) round.2).map (fun x => (t, x.req)) =
          (individual round.1).map (t, ·) := by
        rw [← congrArg (List.map (t, ·)) hround, List.map_map]
        rfl
      exact congrArg (· ++ _) hhead

/-- What of a tagged entry shows as a `StartLink`. -/
def startOf (x : τ × Entry Link Str) : Option (τ × Str × Str) :=
  match x.2 with
  | .push l key => some (x.1, mpiProcess l.2.1, key)
  | .pop _ _ => none

/-- What of a tagged entry shows as an `EndLink`. -/
def endOf (x : τ × Entry Link Str) : Option (τ × Str × Str) :=
  match x.2 with
  | .push _ _ => none
  | .pop l ans => some (x.1, mpiProcess l.2.2, ans.getD [])

/-- What is read of the links of a round is read of its entries, one by one. -/
theorem LinkRound.filterMap_tagged {round : Event × List Out} (h : LinkRound round) (t : τ)
    {β : Type} {f : Paje → Option β} {g : τ × Entry Link Str → Option (τ × β)}
    (hlink : ∀ p, Paje.isLink p = false → f p = none)
    (hentry : ∀ entry, actor entry.req = round.1.id1 →
      (f (entryPaje round.1 entry)).map (t, ·) = g (t, entry)) :
    ((pajes round.2).filterMap f).map (t, ·) =
      ((readLinks (individual round.1) round.2).map (t, ·)).filterMap g := by
  have hlinks : (pajes round.2).filterMap f =
      ((pajes round.2).filter Paje.isLink).filterMap f := by
    rw [List.filterMap_filter]
    apply List.filterMap_congr
    intro p _
    cases hp : Paje.isLink p with
    | true => rfl
    | false => exact hlink p hp
  rw [hlinks, h.links, List.filterMap_map, List.filterMap_map, List.map_filterMap]
  refine List.filterMap_congr fun entry hmem => hentry entry (actor_individual ?_)
  rw [← h.req]
  exact List.mem_map_of_mem hmem

theorem round_starts {round : Event × List Out} (h : LinkRound round) (t : τ) :
    ((pajes round.2).filterMap Paje.start).map (t, ·) =
      ((readLinks (individual round.1) round.2).map (t, ·)).filterMap startOf := by
  refine h.filterMap_tagged t (fun p hp => by cases p <;> first | rfl | cases hp) ?_
  intro entry hid
  cases entry with
  | push l key =>
    have hid' : l.2.1 = round.1.id1 := hid
    show Option.map (t, ·) (startLink round.1 l.1.keys key).start = _
    unfold startLink linksizemark
    split
    split <;> simp [Paje.start, startOf, hid']
  | pop l ans => rfl

theorem round_ends {round : Event × List Out} (h : LinkRound round) (t : τ) :
    ((pajes round.2).filterMap Paje.end_).map (t, ·) =
      ((readLinks (individual round.1) round.2).map (t, ·)).filterMap endOf := by
  refine h.filterMap_tagged t (fun p hp => by cases p <;> first | rfl | cases hp) ?_
  intro entry hid
  cases entry with
  | push l key =>
    show Option.map (t, ·) (startLink round.1 l.1.keys key).end_ = none
    unfold startLink linksizemark
    split
    split <;> rfl
  | pop l ans =>
    have hid' : l.2.2 = round.1.id1 := hid
    simp [entryPaje, endLink, Paje.end_, endOf, hid']

/-- **The links of a run are its tagged log**: one `StartLink` for each send, at the sender's
    container, and one `EndLink` for each receive, at the receiver's. -/
theorem starts_eq (hrounds : ∀ round ∈ r.rounds, LinkRound round) :
    r.starts tags = (r.tagged tags).filterMap startOf := by
  unfold RunOf.starts RunOf.tagged
  rw [List.filterMap_flatMap]
  apply List.flatMap_congr
  intro x hx
  exact round_starts (hrounds x.2 (List.of_mem_zip hx).2) x.1

theorem ends_eq (hrounds : ∀ round ∈ r.rounds, LinkRound round) :
    r.ends tags = (r.tagged tags).filterMap endOf := by
  unfold RunOf.ends RunOf.tagged
  rw [List.filterMap_flatMap]
  apply List.flatMap_congr
  intro x hx
  exact round_ends (hrounds x.2 (List.of_mem_zip hx).2) x.1

end Converter
end Akypuera

import Akypuera.Converter.Step

/-!
# What the converter does with links

A link event stands for one or several individual sends or receives, each from one rank to
one rank (`individual`). The rounds below turn them into calls on the key store and into
`StartLink`s and `EndLink`s, and this file says that **nothing else happens**: whatever path
a round takes through the `treat_…` helpers, its effect is `Performed`, the individual
operations done one after the other.

Read the other way round, what a round wrote determines what the store answered:
`readLinks` recovers one log entry for each individual operation, with the key in the
`StartLink` or `EndLink`, and with an empty answer exactly where the round reported a missing
key. So a run of the converter *has* a log of queue operations (`RunOf.links`), and
`loop_links` identifies it with the log of its key store.

A link is named by its family and the two ranks as the events carry them, 64 bits wide. What
the store files it under is `Link.triple`, and the two are not the same thing.
-/

set_option autoImplicit false

namespace Akypuera
namespace Converter

open CText Code Keys Fifo

/-- A kind of link, its source and its destination. -/
abbrev Link := Family × UInt64 × UInt64

/-- The triple a link's keys are filed under. -/
def Link.triple (l : Link) : Triple := (l.1.keyc, toInt l.2.1, toInt l.2.2)

theorem Link.fits (l : Link) : (Link.triple l).Fits := by
  have hlen : l.1.keyc.length ≤ 175 := by cases l.1 <;> decide
  exact fits_of_length_le hlen _ _

/-- The ranks a collective event loops over. -/
def others (e : Event) : List UInt32 :=
  (ranksBelow (e.vUint32 0)).filter fun rank => rank.toUInt64 ≠ e.id1

/-- The individual sends and receives of an event. -/
def individual (e : Event) : List (Req Link) :=
  let peer := (e.vUint32 0).toUInt64
  match arm e.type with
  | .ptpSend => [.put (.ptp, e.id1, peer)]
  | .ptpRecv => [.take (.ptp, peer, e.id1)]
  | .xt1Send f => [.put (f, e.id1, peer)]
  | .oneTxSend f => (others e).map fun rank => .put (f, e.id1, rank.toUInt64)
  | .xt1Recv f => (others e).map fun rank => .take (f, rank.toUInt64, e.id1)
  | .oneTxRecv f => [.take (f, peer, e.id1)]
  | _ => []

/-! ## Individual operations on the store -/

/-- The call on the store that an individual operation makes. -/
def reqOp : Req Link → Op
  | .put l => .put (Link.triple l)
  | .take l => .get (Link.triple l)

/-- An individual operation with the store's answer. -/
def reqEntry (a : Answer) : Req Link → Entry Link Str
  | .put l => .push l (cstr a.key)
  | .take l => .pop l a.text

/-- Individual operations done one after the other. -/
def linkLog (ks : KeyStore) : List (Req Link) → List (Entry Link Str)
  | [] => []
  | r :: rs => reqEntry (ks.call (reqOp r)).2 r :: linkLog (ks.call (reqOp r)).1 rs

theorem linkLog_append (ks : KeyStore) (rs rs' : List (Req Link)) :
    linkLog ks (rs ++ rs') = linkLog ks rs ++ linkLog (ks.final (rs.map reqOp)) rs' := by
  induction rs generalizing ks with
  | nil => rfl
  | cons r rs ih => simp [linkLog, KeyStore.final, ih]

theorem linkLog_req (ks : KeyStore) (rs : List (Req Link)) :
    (linkLog ks rs).map Entry.req = rs := by
  induction rs generalizing ks with
  | nil => rfl
  | cons r rs ih => cases r <;> simp [linkLog, reqEntry, Entry.req, ih]

/-- The store's own log is the same one, filed under triples. -/
theorem linkLog_rekey (ks : KeyStore) (rs : List (Req Link)) :
    (linkLog ks rs).map (Entry.rekey Link.triple) = ks.log (rs.map reqOp) := by
  induction rs generalizing ks with
  | nil => rfl
  | cons r rs ih =>
    cases r <;> simp [linkLog, reqEntry, reqOp, Entry.rekey, KeyStore.log, Op.entry, ih]

/-- **The log of a fresh store serves the triples**: one FIFO queue for each. -/
theorem serves_linkLog {ks : KeyStore} {q : Queues Triple Str} (h : ks.Tracks q)
    (hu : ks.Unbounded) (rs : List (Req Link)) :
    Serves q ((linkLog ks rs).map (Entry.rekey Link.triple)) := by
  rw [linkLog_rekey]
  apply h.serves hu
  intro op hop
  obtain ⟨r, _, rfl⟩ := List.mem_map.mp hop
  cases r <;> exact Link.fits _

/-- An individual receive found no key. -/
def Missed : Entry Link Str → Bool
  | .pop _ none => true
  | _ => false

/-! ## Performing them in a round -/

/-- What a round writes for one individual operation. -/
def written (e : Event) (func : Str) : Entry Link Str → List Out
  | .push l key => [.paje (startLink e l.1.keys key)]
  | .pop l (some key) => [.paje (endLink e l.1.keys key)]
  | .pop l none => [.stderr (noKey func e.id1 (toInt l.2.1)), .paje (endLink e l.1.keys [])]

/-- The round did the individual operations `rs`, in order, and nothing else. -/
structure Performed (args : Arguments) (e : Event) (func : Str) (rs : List (Req Link))
    (st : State) (res : State × List Out) : Prop where
  keys : res.1.keys = st.keys.final (rs.map reqOp)
  outs : res.2 = (linkLog st.keys rs).flatMap (written e func)
  fail : res.1.fail = (st.fail || (!args.ignoreErrors && (linkLog st.keys rs).any Missed))
  rootCreated : res.1.rootCreated = st.rootCreated
  timestamp : res.1.timestamp = st.timestamp

variable {args : Arguments} {e : Event} {func : Str}

theorem Performed.nil (st : State) : Performed args e func [] st (st, []) :=
  ⟨rfl, rfl, by simp [linkLog], rfl, rfl⟩

theorem Performed.append {rs rs' : List (Req Link)} {st : State} {res res' : State × List Out}
    (h : Performed args e func rs st res) (h' : Performed args e func rs' res.1 res') :
    Performed args e func (rs ++ rs') st (res'.1, res.2 ++ res'.2) where
  keys := by rw [h'.keys, h.keys, List.map_append, KeyStore.final_append]
  outs := by rw [h'.outs, h.outs, h.keys, linkLog_append, List.flatMap_append]
  fail := by
    rw [h'.fail, h.fail, h.keys, linkLog_append, List.any_append, Bool.and_or_distrib_left,
      Bool.or_assoc]
  rootCreated := h'.rootCreated.trans h.rootCreated
  timestamp := h'.timestamp.trans h.timestamp

theorem toInt_toUInt64 (x : UInt32) : toInt x.toUInt64 = x.toInt32 := by
  simp [toInt]

theorem putKey_performed (st : State) (f : Family) (dst : UInt32) :
    Performed args e func [.put (f, e.id1, dst.toUInt64)] st (putKey st e f dst.toInt32) := by
  have hop : reqOp (.put (f, e.id1, dst.toUInt64)) = .put (f.keyc, toInt e.id1, dst.toInt32) := by
    simp [reqOp, Link.triple, toInt_toUInt64]
  refine ⟨?_, ?_, ?_, rfl, rfl⟩
  · simp [putKey, KeyStore.final, hop]
  · simp [putKey, linkLog, hop, reqEntry, written]
  · simp [putKey, linkLog, reqEntry, Missed]

theorem getKey_performed (st : State) (f : Family) (src : UInt32) :
    Performed args e func [.take (f, src.toUInt64, e.id1)] st
      (getKey args st e func f src.toInt32) := by
  have hop : reqOp (.take (f, src.toUInt64, e.id1)) = .get (f.keyc, src.toInt32, toInt e.id1) := by
    simp [reqOp, Link.triple, toInt_toUInt64]
  have hspec := st.keys.get_spec (f.keyc, src.toInt32, toInt e.id1)
  cases hres : (st.keys.call (.get (f.keyc, src.toInt32, toInt e.id1))).2.nonNull with
  | true =>
    have htext : (st.keys.call (.get (f.keyc, src.toInt32, toInt e.id1))).2.text = some _ :=
      if_pos hres
    refine ⟨?_, ?_, ?_, ?_, ?_⟩
    · simp [getKey, hres, KeyStore.final, hop]
    · simp [getKey, hres, linkLog, hop, reqEntry, written, htext]
    · simp [getKey, hres, linkLog, hop, reqEntry, htext, Missed]
    · simp [getKey, hres]
    · simp [getKey, hres]
  | false =>
    have htext : (st.keys.call (.get (f.keyc, src.toInt32, toInt e.id1))).2.text = none := by
      simp [Answer.text, hres]
    -- the buffer was zeroed, so the key that is written is empty
    have hkey : cstr (st.keys.call (.get (f.keyc, src.toInt32, toInt e.id1))).2.key = [] := by
      rw [hspec.null hres]
      exact cstr_zeroed _
    refine ⟨?_, ?_, ?_, ?_, ?_⟩
    · simp [getKey, hres, KeyStore.final, hop]
    · simp [getKey, hres, linkLog, hop, reqEntry, written, htext, hkey, toInt_toUInt64]
    · cases hi : args.ignoreErrors <;> simp [getKey, hres, linkLog, hop, reqEntry, htext, Missed, hi]
    · simp [getKey, hres]
    · simp [getKey, hres]

/-- A loop performs what its rounds perform. -/
theorem forRanks_performed {body : State → UInt32 → State × List Out}
    {ops : UInt32 → List (Req Link)}
    (hbody : ∀ st rank, Performed args e func (ops rank) st (body st rank)) (st : State)
    (ranks : List UInt32) :
    Performed args e func (ranks.flatMap ops) st (forRanks body st ranks) := by
  induction ranks generalizing st with
  | nil => exact Performed.nil st
  | cons rank ranks ih => exact (hbody st rank).append (ih _)

theorem flatMap_ite_eq_map_filter {α β : Type} (p : α → Prop) [DecidablePred p] (g : α → β)
    (xs : List α) :
    xs.flatMap (fun a => if p a then [g a] else []) = (xs.filter fun a => p a).map g := by
  induction xs with
  | nil => rfl
  | cons a xs ih => by_cases ha : p a <;> simp [ha, ih]

theorem treat1txSend_performed (st : State) (f : Family) :
    Performed args e func ((others e).map fun rank => .put (f, e.id1, rank.toUInt64)) st
      (treat1txSend st e f) := by
  rw [others, ← flatMap_ite_eq_map_filter]
  refine forRanks_performed (fun st rank => ?_) st _
  split
  · exact putKey_performed st f rank
  · exact Performed.nil st

theorem treatXt1Recv_performed (st : State) (f : Family) :
    Performed args e "treat_xt1_recv".toList
      ((others e).map fun rank => .take (f, rank.toUInt64, e.id1)) st
      (treatXt1Recv args st e f) := by
  rw [others, ← flatMap_ite_eq_map_filter]
  refine forRanks_performed (fun st rank => ?_) st _
  split
  · exact getKey_performed st f rank
  · exact Performed.nil st

/-- The function a missing key is reported from. -/
def reporter (e : Event) : Str :=
  match arm e.type with
  | .xt1Recv _ => "treat_xt1_recv".toList
  | .oneTxRecv _ => "treat_1tx_recv".toList
  | _ => "main".toList

/-- **The link code of a round performs the event's individual operations.** -/
theorem stepLinks_performed (st : State) :
    Performed args e (reporter e) (individual e) st (stepLinks args st e) := by
  unfold individual stepLinks reporter
  cases arm e.type with
  | ptpSend => exact putKey_performed st .ptp _
  | ptpRecv => exact getKey_performed st .ptp _
  | xt1Send f => exact putKey_performed st f _
  | oneTxSend f => exact treat1txSend_performed st f
  | xt1Recv f => exact treatXt1Recv_performed st f
  | oneTxRecv f => exact getKey_performed st f _
  | _ => exact Performed.nil st

/-! ## Reading the log off the trace -/

/-- The log entries of the operations `rs`, read off what was written for them. -/
def readLinks : List (Req Link) → List Out → List (Entry Link Str)
  | .put l :: rs, .paje (.startLink _ _ _ _ _ key _) :: outs => .push l key :: readLinks rs outs
  | .take l :: rs, .stderr _ :: .paje (.endLink ..) :: outs => .pop l none :: readLinks rs outs
  | .take l :: rs, .paje (.endLink _ _ _ _ _ key) :: outs =>
      .pop l (some key) :: readLinks rs outs
  | _, _ => []

theorem readLinks_written (log : List (Entry Link Str)) :
    readLinks (log.map Entry.req) (log.flatMap (written e func)) = log := by
  induction log with
  | nil => rfl
  | cons entry log ih =>
    cases entry with
    | push l key =>
      have hstart : ∃ t c ty s v u, startLink e l.1.keys key = .startLink t c ty s v key u := by
        unfold startLink linksizemark
        split
        split <;> exact ⟨_, _, _, _, _, _, rfl⟩
      obtain ⟨t, c, ty, s, v, u, hstart⟩ := hstart
      simp [Entry.req, written, hstart, readLinks, ih]
    | pop l ans => cases ans <;> simp [Entry.req, written, endLink, readLinks, ih]

/-- The log of a run, one entry for each individual operation of the events it took. -/
def RunOf.links {σ : Type} (r : RunOf σ) : List (Entry Link Str) :=
  r.rounds.flatMap fun round => readLinks (individual round.1) round.2

/-! ## Rounds and runs -/

/-- The label groups under which the link code stands. -/
def Arm.isLink : Arm → Bool
  | .ptpSend | .ptpRecv | .xt1Send _ | .oneTxSend _ | .xt1Recv _ | .oneTxRecv _ => true
  | _ => false

/-- Those that put keys. -/
def Arm.sends : Arm → Bool
  | .ptpSend | .xt1Send _ | .oneTxSend _ => true
  | _ => false

/-- Those that ask for keys. -/
def Arm.receives : Arm → Bool
  | .ptpRecv | .xt1Recv _ | .oneTxRecv _ => true
  | _ => false

theorem sends_of_put {e : Event} {l : Link} (h : .put l ∈ individual e) :
    (arm e.type).sends = true := by
  unfold individual at h
  cases ha : arm e.type <;> simp [ha, Arm.sends] at h ⊢

theorem receives_of_take {e : Event} {l : Link} (h : .take l ∈ individual e) :
    (arm e.type).receives = true := by
  unfold individual at h
  cases ha : arm e.type <;> simp [ha, Arm.receives] at h ⊢

theorem not_sends_of_receives {a : Arm} (h : a.receives = true) : a.sends = false := by
  cases a <;> simp [Arm.receives, Arm.sends] at h ⊢

/-- The process survives the event: no `assert` fails and every state has a name. -/
def passes (args : Arguments) (e : Event) : Bool :=
  args.noStates || !(arm e.type).pushes || (statePushed e).isSome

theorem step_eq_none {st : State} (h : passes args e = false) : step args st e = none := by
  simp only [passes, Bool.or_eq_false_iff, Bool.not_eq_false'] at h
  obtain ⟨⟨hstates, hpush⟩, hnone⟩ := h
  have hnone' : statePushed e = none := by simpa using hnone
  unfold step
  cases ha : arm e.type <;> simp [ha, Arm.pushes] at hpush ⊢ <;> simp [hstates, hnone']

theorem individual_eq_nil (h : (arm e.type).isLink = false) : individual e = [] := by
  unfold individual
  cases ha : arm e.type <;> simp [ha, Arm.isLink] at h ⊢

theorem step_link (st : State) (h : (arm e.type).isLink = true) :
    step args st e = some (if args.noLinks then ({ st with timestamp := e.timestamp }, [])
      else stepLinks args { st with timestamp := e.timestamp } e) := by
  unfold step
  cases ha : arm e.type <;> simp [ha, Arm.isLink] at h ⊢ <;> split <;> rfl

/-- A round on something else leaves the store and `fail` alone. -/
theorem step_other (st : State) (h : (arm e.type).isLink = false) (hp : passes args e = true) :
    ∃ res, step args st e = some res ∧ res.1.keys = st.keys ∧ res.1.fail = st.fail := by
  have hpush : (arm e.type).pushes = true → args.noStates = false →
      ∃ out, statePushed e = some out := by
    intro hpush hstates
    simpa [passes, hpush, hstates, Option.isSome_iff_exists] using hp
  unfold step
  cases ha : arm e.type with
  | init =>
    simp only [createContainers]
    split <;> exact ⟨_, rfl, rfl, rfl⟩
  | pushState | pushStateSend | pushStateRecv =>
    cases hstates : args.noStates with
    | true => exact ⟨_, rfl, rfl, rfl⟩
    | false =>
      obtain ⟨out, hout⟩ := hpush (by rw [ha]; rfl) hstates
      simp only [hout]
      exact ⟨_, rfl, rfl, rfl⟩
  | popState | finalizeOut | skip => exact ⟨_, rfl, rfl, rfl⟩
  | _ => simp [ha, Arm.isLink] at h

/-- The other way round from `step_eq_none`. -/
theorem step_survives (st : State) (hp : passes args e = true) :
    ∃ res, step args st e = some res := by
  cases hlink : (arm e.type).isLink with
  | true => exact ⟨_, step_link st hlink⟩
  | false =>
    obtain ⟨res, hstep, _⟩ := step_other st hlink hp
    exact ⟨res, hstep⟩

/-- **A round performs its event's individual operations**, and what it wrote shows their
    answers. -/
theorem step_performed (hl : args.noLinks = false) (st : State) (hp : passes args e = true) :
    ∃ res, step args st e = some res ∧
      res.1.keys = st.keys.final ((individual e).map reqOp) ∧
      readLinks (individual e) res.2 = linkLog st.keys (individual e) ∧
      res.1.fail =
        (st.fail || (!args.ignoreErrors && (linkLog st.keys (individual e)).any Missed)) := by
  cases hlink : (arm e.type).isLink with
  | true =>
    have hperf : Performed args e (reporter e) (individual e)
        { st with timestamp := e.timestamp } _ := stepLinks_performed _
    refine ⟨_, by rw [step_link st hlink, hl]; rfl, hperf.keys, ?_, hperf.fail⟩
    rw [hperf.outs]
    have hread : readLinks ((linkLog st.keys (individual e)).map Entry.req)
        ((linkLog st.keys (individual e)).flatMap (written e (reporter e))) =
          linkLog st.keys (individual e) := readLinks_written _
    rwa [linkLog_req] at hread
  | false =>
    obtain ⟨res, hstep, hkeys, hfail⟩ := step_other st hlink hp
    refine ⟨res, hstep, ?_, ?_, ?_⟩
    · rw [individual_eq_nil hlink, hkeys]; rfl
    · rw [individual_eq_nil hlink]; simp [readLinks, linkLog]
    · rw [individual_eq_nil hlink, hfail]; simp [linkLog]

/-- A run that survives its first event. -/
theorem loop_cons {st st' : State} {outs : List Out} (es : List Event) (hfail : st.fail = false)
    (hstep : step args st e = some (st', outs)) :
    loop args st (e :: es) = { loop args st' es with
      rounds := (e, outs) :: (loop args st' es).rounds } := by
  simp [loop, hfail, hstep]

/-- The process survives events that it survives one by one. -/
theorem loop_died {es : List Event} (hpass : ∀ e ∈ es, passes args e = true) (st : State) :
    (loop args st es).died = false := by
  induction es generalizing st with
  | nil => rfl
  | cons e es ih =>
    unfold loop
    split
    · rfl
    · split
      · rename_i hstep
        obtain ⟨res, hres⟩ := step_survives st (hpass e (by simp))
        rw [hstep] at hres
        exact absurd hres (by simp)
      · exact ih (fun e' he' => hpass e' (by simp [he'])) _

/-- **A run of the converter is a run of its store**: as long as no receive misses its key,
    or misses are ignored, the loop takes every event up to one it dies on, and its links are
    the store's log of their individual operations. -/
theorem loop_links (hl : args.noLinks = false) {st : State} (hfail : st.fail = false)
    (es : List Event)
    (hmiss : args.ignoreErrors = true ∨
      (linkLog st.keys ((es.takeWhile (passes args)).flatMap individual)).any Missed = false) :
    (loop args st es).rounds.map Prod.fst = es.takeWhile (passes args) ∧
      (loop args st es).links =
        linkLog st.keys ((es.takeWhile (passes args)).flatMap individual) ∧
      (loop args st es).state.fail = false := by
  induction es generalizing st with
  | nil => exact ⟨rfl, rfl, hfail⟩
  | cons e es ih =>
    cases hp : passes args e with
    | false =>
      have hdead : loop args st (e :: es) = { rounds := [], state := st, died := true } := by
        simp [loop, hfail, step_eq_none hp]
      rw [hdead, List.takeWhile_cons_of_neg (by simp [hp])]
      exact ⟨rfl, rfl, hfail⟩
    | true =>
      obtain ⟨⟨st', outs⟩, hstep, hkeys, hread, hfail'⟩ := step_performed hl st hp
      simp only at hkeys hread hfail'
      rw [List.takeWhile_cons_of_pos hp] at hmiss ⊢
      rw [List.flatMap_cons, linkLog_append, ← hkeys] at hmiss ⊢
      have hst' : st'.fail = false := by
        rw [hfail', hfail]
        rcases hmiss with hi | hm
        · simp [hi]
        · rw [List.any_append, Bool.or_eq_false_iff] at hm
          simp [hm.1]
      have hmiss' : args.ignoreErrors = true ∨
          (linkLog st'.keys ((es.takeWhile (passes args)).flatMap individual)).any Missed
            = false := by
        apply hmiss.imp_right
        intro hm
        rw [List.any_append, Bool.or_eq_false_iff] at hm
        exact hm.2
      obtain ⟨hrounds, hlinks, hlast⟩ := ih hst' hmiss'
      rw [loop_cons es hfail hstep]
      refine ⟨by simp [hrounds], ?_, hlast⟩
      rw [← hlinks, ← hread]
      rfl

end Converter
end Akypuera

import Akypuera.Converter.Capacity
import Akypuera.Converter.Overflow

/-!
# Receives that find no key

`aky_get_key` zeroes the caller's buffer before it looks, so on a miss the buffer holds the empty
string, and all three routines that ask for a key go on to write an `EndLink` with it. The flag
`fail` ends the loop after the event, and `main` then returns 0 like after any other run.

A miss is therefore never contained: **the trace is right exactly when nothing is missed**
(`convert_contained`), which is a condition on the sends and receives of the stream.
-/

set_option autoImplicit false

namespace Akypuera
namespace Converter

open CText Code Keys Fifo Search

/-- How the process ends. -/
inductive Exit where
  | returned (status : Nat)
  | aborted
  deriving DecidableEq

/-- What `main` returns after the loop, whatever `fail` is. -/
def RunOf.exit {σ : Type} (r : RunOf σ) : Exit := if r.died then .aborted else .returned 0

/-- The keys of the `EndLink`s of a trace, in order. -/
def endKeys (ps : List Paje) : List Str :=
  ps.filterMap fun
    | .endLink _ _ _ _ _ key => some key
    | _ => none

/-- How many individual receives an event stands for. -/
def receives (e : Event) : Nat :=
  (individual e).countP fun
    | .put _ => false
    | .take _ => true

/-- **A receive without a send never leaks into the output.** -/
structure Contained {σ : Type} (args : Arguments) (r : RunOf σ) : Prop where
  /-- An `EndLink` has the key of a `StartLink` that was written before it. -/
  started : ∀ pre p post key, r.trace = pre ++ p :: post → p.key = some (.inr key) →
    key ≠ [] ∧ key ∈ startKeys pre
  /-- No key is ended twice. -/
  once : (endKeys r.trace).Nodup
  /-- A receive is reported, or its `EndLink` is written, but not both. -/
  apart : ∀ round ∈ r.rounds,
    (endKeys (pajes round.2)).length + (reports round.2).length ≤ receives round.1
  /-- Without `ignore_errors` nothing follows the event with the miss, and the status says so. -/
  stops : args.ignoreErrors = false → ∀ pre round post, r.rounds = pre ++ round :: post →
    reports round.2 ≠ [] → post = [] ∧ r.exit ≠ .returned 0

variable {args : Arguments} {cap : Option Nat} {es : List Event}

theorem endKeys_eq (ps : List Paje) :
    endKeys ps = (ps.filterMap Paje.key).filterMap Sum.getRight? := by
  rw [List.filterMap_filterMap]
  exact List.filterMap_congr fun p _ => by cases p <;> rfl

/-! ## Runs without links -/

theorem key_trace_noLinks (hl : args.noLinks = true) (cap : Option Nat) (es : List Event) :
    (convert args cap es).trace.filterMap Paje.key = [] := by
  have hrounds := convert_noLinks hl cap es
  have hflat : (pajes ((convert args cap es).rounds.flatMap Prod.snd)).filterMap Paje.key = [] := by
    rw [filterMap_key]
    generalize (convert args cap es).rounds = rounds at hrounds
    induction rounds with
    | nil => rfl
    | cons round rounds ih =>
      rw [List.flatMap_cons, pajes_append, List.filter_append, (hrounds round (by simp)).1]
      exact ih fun x hx => hrounds x (by simp [hx])
  rw [RunOf.trace_eq, RunOf.outs, pajes_append, List.filterMap_append, hflat]
  split <;> simp [pajes, Paje.key]

theorem contained_noLinks (hl : args.noLinks = true) (cap : Option Nat) (es : List Event) :
    Contained args (convert args cap es) := by
  have hkeys := key_trace_noLinks hl cap es
  have hrounds := convert_noLinks hl cap es
  refine ⟨?_, ?_, ?_, ?_⟩
  · intro pre p post key htrace hkey
    rw [htrace, List.filterMap_append, List.filterMap_cons_some hkey] at hkeys
    exact absurd hkeys (by simp)
  · rw [endKeys_eq, hkeys]
    exact List.nodup_nil
  · intro round hmem
    obtain ⟨hlinks, hquiet⟩ := hrounds round hmem
    rw [endKeys_eq, filterMap_key, hlinks, hquiet]
    exact Nat.zero_le _
  · intro _ pre round post hr hrep
    exact absurd (hrounds round (by rw [hr]; simp)).2 hrep

/-! ## Runs in which nothing is missed -/

theorem getRight_shownKey {l : List (Entry Link Str)} (h : l.any Missed = false) :
    (l.map shownKey).filterMap Sum.getRight? = allTaken l := by
  induction l with
  | nil => rfl
  | cons entry l ih =>
    rw [List.any_cons, Bool.or_eq_false_iff] at h
    have ih := ih h.2
    cases entry with
    | push l key => simpa [shownKey, allTaken, List.filterMap_cons] using ih
    | pop l ans =>
      cases ans with
      | some key => simpa [shownKey, allTaken, List.filterMap_cons] using ih
      | none => exact absurd h.1 (by simp [Missed])

/-- What is left out of the log are puts. -/
theorem allTaken_kept (l : List (Entry Link Str)) :
    allTaken (kept (l.map (Entry.rekey Link.triple))) = allTaken l := by
  induction l with
  | nil => rfl
  | cons entry l ih =>
    cases entry with
    | push l key =>
      cases key with
      | nil => exact ih
      | cons c key => exact ih
    | pop l ans => exact congrArg (ans.toList ++ ·) ih

/-- The operations of a stream that reach the key store's queues. -/
def served (args : Arguments) (cap : Option Nat) (es : List Event) : List (Req Triple) :=
  admitted cap [] (filedReqs (taken args es))

/-- What the keys that are handed out are made of. -/
def stampsHandedOut (rs : List (Req Triple)) : List (Int32 × Int32 × UInt64) :=
  handedOut Queues.empty (stamps (putKeys rs)) rs

/-- The log of a run that misses nothing. -/
theorem log_of_enough (hl : args.noLinks = false) (he : Enough (served args cap es)) :
    (convert args cap es).links = freshLog cap ((taken args es).flatMap individual) ∧
      (convert args cap es).links.any Missed = false := by
  have hreach : reached args cap es = taken args es :=
    reached_eq_taken (Or.inr (Or.inr ((enough_reached_iff es).mpr he)))
  rw [convert_log hl, hreach]
  exact ⟨rfl, (missed_iff cap _).mpr he⟩

/-- The keys it ends. -/
theorem endKeys_of_enough (hl : args.noLinks = false) (he : Enough (served args cap es)) :
    endKeys (convert args cap es).trace = (stampsHandedOut (served args cap es)).map stampKey := by
  obtain ⟨hlog, hmiss⟩ := log_of_enough hl he
  obtain ⟨hreq, hserves, hkeys⟩ := keptLog_spec cap ((taken args es).flatMap individual)
  rw [endKeys_eq, trace_shown (convert_linkRound hl cap es), getRight_shownKey hmiss, hlog,
    ← allTaken_kept]
  rw [show kept ((freshLog cap ((taken args es).flatMap individual)).map
    (Entry.rekey Link.triple)) = keptLog cap ((taken args es).flatMap individual) from rfl,
    hserves.handedOut_eq, hkeys, hreq]
  exact handedOut_map stampKey Queues.empty _ _

/-- Every key that is handed out was put before. -/
theorem started_of_enough (hl : args.noLinks = false) (he : Enough (served args cap es))
    {pre post : List Paje} {p : Paje} {key : Str}
    (htrace : (convert args cap es).trace = pre ++ p :: post) (hkey : p.key = some (.inr key)) :
    key ≠ [] ∧ key ∈ startKeys pre := by
  obtain ⟨hlog, hmiss⟩ := log_of_enough hl he
  have hshown := trace_shown (convert_linkRound hl cap es)
  rw [htrace, List.filterMap_append, List.filterMap_cons_some hkey] at hshown
  obtain ⟨lpre, lrest, hsplit, hpre, hrest⟩ := List.map_eq_append_iff.mp hshown.symm
  obtain ⟨entry, lpost, rfl, hentry, -⟩ := List.map_eq_cons_iff.mp hrest
  cases entry with
  | push l v => exact absurd hentry (by simp [shownKey])
  | pop l ans =>
    cases ans with
    | none =>
      rw [hsplit, List.any_append, List.any_cons] at hmiss
      exact absurd hmiss (by simp [Missed])
    | some v =>
      cases hentry
      obtain ⟨-, hserves, hkeys⟩ := keptLog_spec cap ((taken args es).flatMap individual)
      have hkept : keptLog cap ((taken args es).flatMap individual) =
          kept (lpre.map (Entry.rekey Link.triple)) ++ .pop (Link.triple l) (some v) ::
            kept (lpost.map (Entry.rekey Link.triple)) := by
        rw [keptLog, ← hlog, hsplit, List.map_append, kept, List.filter_append]
        rfl
      have hbefore := hserves
      rw [hkept] at hbefore
      have hput := (pushed_sublist _ _).subset hbefore.pushed_before
      have hstamp : v ∈ allPushed (keptLog cap ((taken args es).flatMap individual)) := by
        rw [hkept, allPushed_append]
        exact List.mem_append_left _ hput
      refine ⟨?_, ?_⟩
      · rw [hkeys] at hstamp
        obtain ⟨stamp, -, rfl⟩ := List.mem_map.mp hstamp
        exact linkKey_ne_nil _ _ _
      · rw [startKeys_eq, ← hpre, getLeft_shownKey, ← allPushed_rekey]
        obtain ⟨k, hmem⟩ := mem_allPushed.mp hput
        exact mem_allPushed.mpr ⟨k, List.mem_of_mem_filter hmem⟩

/-- One `EndLink` for each receive. -/
theorem length_endKeys {round : Event × List Out} (h : LinkRound round) :
    (endKeys (pajes round.2)).length = receives round.1 := by
  have hcount : ∀ l : List (Entry Link Str), ((l.map shownKey).filterMap Sum.getRight?).length =
      (l.map Entry.req).countP fun
        | .put _ => false
        | .take _ => true := by
    intro l
    induction l with
    | nil => rfl
    | cons entry l ih =>
      simp only [List.map_cons, List.filterMap_cons, List.countP_cons, ← ih]
      cases entry <;> rfl
  rw [endKeys_eq, h.shown, hcount, h.req]
  rfl

/-- **Nothing leaks exactly when nothing is missed.** -/
theorem contained_iff (args : Arguments) (cap : Option Nat) (es : List Event) :
    Contained args (convert args cap es) ↔ args.noLinks = true ∨
      Enough (served args cap es) ∧ (stampsHandedOut (served args cap es)).Nodup := by
  cases hl : args.noLinks with
  | true => exact iff_of_true (contained_noLinks hl cap es) (Or.inl rfl)
  | false =>
    have hrounds := convert_linkRound hl cap es
    have hshown := convert_shown hl cap es
    constructor
    · intro h
      refine Or.inr ?_
      have he : Enough (served args cap es) := by
        rw [served, ← enough_reached_iff]
        refine (missed_iff cap _).mp ?_
        by_contra hany
        obtain ⟨entry, hmem, hmiss⟩ := List.any_eq_true.mp (by simpa using hany)
        -- the miss shows as an end with the empty key
        have hempty : shownKey entry = .inr [] := by
          cases entry with
          | push l key => exact absurd hmiss (by simp [Missed])
          | pop l ans =>
            cases ans with
            | some key => exact absurd hmiss (by simp [Missed])
            | none => rfl
        have hin : .inr [] ∈ (convert args cap es).trace.filterMap Paje.key := by
          rw [hshown, ← hempty]
          exact List.mem_map_of_mem hmem
        obtain ⟨p, hp, hkey⟩ := List.mem_filterMap.mp hin
        obtain ⟨pre, post, htrace⟩ := List.append_of_mem hp
        exact (h.started pre p post [] htrace hkey).1 rfl
      refine ⟨he, ?_⟩
      have honce := h.once
      rwa [endKeys_of_enough hl he, List.nodup_map_iff stampKey_injective] at honce
    · rintro (hno | ⟨he, hnodup⟩)
      · exact absurd hno (by simp)
      · have hmiss := (log_of_enough hl he).2
        have hquiet : ∀ round ∈ (convert args cap es).rounds, reports round.2 = [] := by
          intro round hmem
          refine (hrounds round hmem).quiet ?_
          rw [List.any_eq_false] at hmiss ⊢
          exact fun entry hentry => hmiss entry (List.mem_flatMap.mpr ⟨round, hmem, hentry⟩)
        refine ⟨fun pre p post key => started_of_enough hl he, ?_, fun round hmem => ?_,
          fun _ pre round post hr hrep => ?_⟩
        · rwa [endKeys_of_enough hl he, List.nodup_map_iff stampKey_injective]
        · rw [hquiet round hmem, length_endKeys (hrounds round hmem)]
          exact Nat.le_refl _
        · exact absurd (hquiet round (by rw [hr]; simp)) hrep

/-- What there is to see of a run. -/
theorem contained_congr {r : RunOf IntKeys} {r' : Run} (hrounds : r.rounds = r'.rounds)
    (hdied : r.died = r'.died) (houts : r.outs = r'.outs) :
    Contained args r ↔ Contained args r' := by
  have htrace : r.trace = r'.trace := trace_congr houts
  have hexit : r.exit = r'.exit := by rw [RunOf.exit, RunOf.exit, hdied]
  constructor
  · rintro ⟨hstarted, honce, hapart, hstops⟩
    exact ⟨htrace ▸ hstarted, htrace ▸ honce, hrounds ▸ hapart, hexit ▸ hrounds ▸ hstops⟩
  · rintro ⟨hstarted, honce, hapart, hstops⟩
    exact ⟨htrace ▸ hstarted, htrace ▸ honce, hrounds ▸ hapart, hexit ▸ hrounds ▸ hstops⟩

/-- Where there is enough, the requests of the stream say whether a queue fills up. -/
theorem fewWaiting_of_enough (hl : args.noLinks = false) (he : Enough (served args cap es)) :
    FewWaiting args cap es ↔ Within (2 ^ 31) (fun _ => 0) (served args cap es) := by
  have hreach : reached args cap es = taken args es :=
    reached_eq_taken (Or.inr (Or.inr ((enough_reached_iff es).mpr he)))
  rw [FewWaiting, hreach, hl]
  exact or_iff_right (by simp)

/-- **A receive without a send never leaks into the output exactly when there is none**: with
    links, when every individual receive of the stream has more sends of its triple before it,
    among those the table has room for, than receives, the counter has not come round
    between two sends of the same ranks that are received, and fewer than `2 ^ 31` keys wait in
    every queue. -/
theorem convert_contained (args : Arguments) (es : List Event) :
    let r := convertOn IntKeys args (some (hcreateSize akyKeyTableSize)) es
    r.Defined ∧ Contained args r ↔
      args.noLinks = true ∨ Enough (served args (some 1009) es) ∧
        (stampsHandedOut (served args (some 1009) es)).Nodup ∧
        Within (2 ^ 31) (fun _ => 0) (served args (some 1009) es) := by
  intro r
  have hr : r = convertOn IntKeys args (some 1009) es :=
    congrArg (convertOn IntKeys args · es) (congrArg some hcreateSize_akyKeyTableSize)
  rw [hr, convertOn_defined]
  have hsame : FewWaiting args (some 1009) es →
      (Contained args (convertOn IntKeys args (some 1009) es) ↔ args.noLinks = true ∨
        Enough (served args (some 1009) es) ∧
          (stampsHandedOut (served args (some 1009) es)).Nodup) := fun hfew => by
    obtain ⟨hrounds, hdied, houts⟩ := convertOn_same hfew
    rw [contained_congr hrounds hdied houts, contained_iff]
  cases hl : args.noLinks with
  | true =>
    have hfew : FewWaiting args (some 1009) es := .inl hl
    exact iff_of_true ⟨hfew, (hsame hfew).mpr (.inl hl)⟩ (.inl rfl)
  | false =>
    rw [hl] at hsame
    simp only [Bool.false_eq_true, false_or] at hsame ⊢
    constructor
    · rintro ⟨hfew, hcontained⟩
      obtain ⟨he, hnodup⟩ := (hsame hfew).mp hcontained
      exact ⟨he, hnodup, (fewWaiting_of_enough hl he).mp hfew⟩
    · rintro ⟨he, hnodup, hwithin⟩
      have hfew := (fewWaiting_of_enough hl he).mpr hwithin
      exact ⟨hfew, (hsame hfew).mpr ⟨he, hnodup⟩⟩

/-- A receive without a send. -/
def loneReceive : List Event := [.ofRecord 1 1 (rstEventI akyPtpRecv 0)]

/-- Its `EndLink` is written, with the empty key. -/
theorem convert_not_contained :
    ¬ Contained ⟨false, false, false⟩
      (convertOn IntKeys ⟨false, false, false⟩ (some (hcreateSize akyKeyTableSize))
        loneReceive) := by
  have hfew : FewWaiting ⟨false, false, false⟩ (some 1009) loneReceive := by decide +kernel
  obtain ⟨hrounds, hdied, houts⟩ := convertOn_same hfew
  rw [hcreateSize_akyKeyTableSize]
  rw [contained_congr hrounds hdied houts, contained_iff]
  decide +kernel

end Converter
end Akypuera

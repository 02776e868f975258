import Akypuera.Converter.Tagged

/-!
# Runs in which every receive finds a key

A stream in which, under each triple, more is sent than received whenever something is
received (`Enough`) is one the converter takes to its end without a report (`faultless`): no
key is missing, so nothing raises `fail`.

With tags more can be said. If the tags are received in the order they are sent in, each link
joins a send and a receive of one tag (`Faultless.shown`). Nothing here says where tags come
from, or why a program's events would be in order; that is shown where the program is known.
-/

set_option autoImplicit false

namespace Akypuera
namespace Converter

open CText Code Keys Fifo

/-- The individual operations of events, as they are filed. -/
def filedReqs (es : List Event) : List (Req Triple) :=
  (es.flatMap individual).map (Req.rekey Link.triple)

/-- The run took every event, and every receive found a key. -/
structure Faultless (es : List Event) (r : Run) : Prop where
  rounds : r.rounds.map Prod.fst = es
  died : r.died = false
  quiet : r.reports = []
  links : r.links = linkLog (KeyStore.init none) (es.flatMap individual)
  linkRounds : ∀ round ∈ r.rounds, LinkRound round

variable {args : Arguments} {es : List Event} {r : Run}

/-- The log of a fresh store on these operations, as it is filed. -/
theorem serves_filed (rs : List (Req Link)) :
    Serves Queues.empty ((linkLog (KeyStore.init none) rs).map (Entry.rekey Link.triple)) :=
  serves_linkLog (KeyStore.tracks_init none) rfl rs

theorem req_filed (es : List Event) :
    ((linkLog (KeyStore.init none) (es.flatMap individual)).map
      (Entry.rekey Link.triple)).map Entry.req = filedReqs es := by
  rw [filedReqs, ← linkLog_req (KeyStore.init none) (es.flatMap individual), List.map_map,
    List.map_map, linkLog_req]
  exact List.map_congr_left fun e _ => Entry.req_rekey _ e

/-- Where there is enough, nothing is missed. -/
theorem not_missed (he : Enough (filedReqs es)) :
    (linkLog (KeyStore.init none) (es.flatMap individual)).any Missed = false := by
  by_contra hany
  obtain ⟨entry, hmem, hmiss⟩ := List.any_eq_true.mp (by simpa using hany)
  cases entry with
  | push l key => exact absurd hmiss (by simp [Missed])
  | pop l ans =>
    have hans : ans.isSome := (serves_filed _).isSome_of_enough (by rw [req_filed]; exact he)
      (List.mem_map.mpr ⟨_, hmem, rfl⟩ : Entry.pop (Link.triple l) ans ∈ _)
    cases ans with
    | some key => exact absurd hmiss (by simp [Missed])
    | none => exact absurd hans (by simp)

/-- A run without a miss reports nothing. -/
theorem reports_rounds (hlink : ∀ round ∈ r.rounds, LinkRound round)
    (hmiss : r.links.any Missed = false) : reports (r.rounds.flatMap Prod.snd) = [] := by
  unfold RunOf.links at hmiss
  generalize r.rounds = rounds at hlink hmiss
  induction rounds with
  | nil => rfl
  | cons round rounds ih =>
    rw [List.flatMap_cons, List.any_append, Bool.or_eq_false_iff] at hmiss
    rw [List.flatMap_cons, reports_append, (hlink round (by simp)).quiet hmiss.1,
      ih (fun x hx => hlink x (by simp [hx])) hmiss.2]
    rfl

/-- **Where there is enough, a run is without fault.** -/
theorem faultless (he : Enough (filedReqs es)) (hl : args.noLinks = false)
    (hpass : ∀ e ∈ es, passes args e = true) : Faultless es (convert args none es) := by
  have hall : es.takeWhile (passes args) = es := List.takeWhile_eq_self_iff.mpr hpass
  have hinit : (State.init none).fail = false := rfl
  have hmiss := not_missed he
  obtain ⟨hrounds, hlinks, _⟩ := loop_links hl hinit es (Or.inr (by rw [hall]; exact hmiss))
  rw [hall] at hrounds hlinks
  have hlink := loop_linkRound hl es (State.init none)
  refine ⟨hrounds, loop_died hpass _, ?_, hlinks, hlink⟩
  have hquiet : reports ((convert args none es).rounds.flatMap Prod.snd) = [] :=
    reports_rounds hlink ((congrArg (·.any Missed) hlinks).trans hmiss)
  rw [RunOf.reports, RunOf.outs, reports_append, hquiet]
  split <;> rfl

/-! ## Tags -/

section
variable {τ : Type} {tes : List (τ × Event)}

/-- The individual operations of tagged events, as they are filed. -/
def filed (tes : List (τ × Event)) : List (τ × Req Triple) :=
  (requests tes).map fun x => (x.1, x.2.rekey Link.triple)

/-- The log of a run, as it is filed. -/
def RunOf.filed (tags : List τ) (r : Run) : List (τ × Entry Triple Str) :=
  (r.tagged tags).map fun x => (x.1, x.2.rekey Link.triple)

theorem map_snd_filed (tes : List (τ × Event)) :
    (filed tes).map Prod.snd = filedReqs (tes.map Prod.snd) := by
  rw [filed, filedReqs, requests, List.map_map, List.map_flatMap, List.flatMap_map,
    List.map_flatMap]
  apply List.flatMap_congr
  intro te _
  rw [List.map_map]
  rfl

theorem zip_fst_snd (tes : List (τ × Event)) :
    (tes.map Prod.fst).zip (tes.map Prod.snd) = tes := by
  rw [List.zip_map']
  exact List.map_id tes

variable (h : Faultless (tes.map Prod.snd) r)
include h

/-- The log asks for what the events ask for. -/
theorem Faultless.requests : (r.tagged (tes.map Prod.fst)).map (fun x => (x.1, x.2.req)) =
    Converter.requests tes := by
  have htagged := @tagged_requests τ r (tes.map Prod.fst) h.linkRounds
  rwa [h.rounds, zip_fst_snd] at htagged

theorem Faultless.filed_requests :
    (r.filed (tes.map Prod.fst)).map (fun x => (x.1, x.2.req)) = filed tes := by
  rw [filed, ← h.requests, RunOf.filed, List.map_map, List.map_map]
  exact List.map_congr_left fun x _ => by simp

theorem Faultless.filed_log : (r.filed (tes.map Prod.fst)).map Prod.snd =
    (linkLog (KeyStore.init none) ((tes.map Prod.snd).flatMap individual)).map
      (Entry.rekey Link.triple) := by
  have hlen : (tes.map Prod.fst).length = r.rounds.length := by
    rw [List.length_map, ← List.length_map (f := Prod.snd), ← h.rounds, List.length_map]
  rw [← h.links, ← tagged_log hlen, RunOf.filed, List.map_map, List.map_map]
  rfl

theorem Faultless.serves :
    Serves Queues.empty ((r.filed (tes.map Prod.fst)).map Prod.snd) := by
  rw [h.filed_log]
  exact serves_filed _

theorem Faultless.enough (he : Enough (filedReqs (tes.map Prod.snd))) :
    Enough ((r.filed (tes.map Prod.fst)).map fun x => x.2.req) := by
  rwa [← map_snd_filed, ← h.filed_requests, List.map_map] at he

/-- The keys of the log are distinct as long as the counter does not come round. -/
theorem Faultless.nodup_keys
    (hlen : (allPushes (r.filed (tes.map Prod.fst))).length ≤ 2 ^ 64) :
    ((allPushes (r.filed (tes.map Prod.fst))).map fun m => m.2.2).Nodup := by
  rw [← List.length_map (f := fun m => m.2.2)] at hlen
  rw [map_allPushes, h.filed_log, linkLog_rekey] at hlen ⊢
  rw [KeyStore.length_log] at hlen
  exact KeyStore.nodup_log (show (KeyStore.init none).Unbounded from rfl) hlen

end

/-! ## What the trace shows -/

/-- The container of a rank as a triple has it. -/
def process (rank : Int32) : Str := mpiProcess rank.toUInt32.toUInt64

theorem process_toInt {id : UInt64} (h : id.toNat < 2 ^ 32) : process (toInt id) = mpiProcess id := by
  unfold process toInt
  congr 1
  apply UInt64.toNat_inj.mp
  simpa using h

section
variable {τ : Type} {tes : List (τ × Event)} (h : Faultless (tes.map Prod.snd) r)
  (hid : ∀ te ∈ tes, te.2.id1.toNat < 2 ^ 32)
include h hid

theorem Faultless.actor_lt :
    ∀ x ∈ r.tagged (tes.map Prod.fst), (actor x.2.req).toNat < 2 ^ 32 := by
  intro x hx
  have hmem : (x.1, x.2.req) ∈ Converter.requests tes := by
    rw [← h.requests]
    exact List.mem_map_of_mem hx
  obtain ⟨te, hte, hreq⟩ := List.mem_flatMap.mp hmem
  obtain ⟨req, hreq, heq⟩ := List.mem_map.mp hreq
  have heq' : req = x.2.req := congrArg Prod.snd heq
  rw [← heq', actor_individual hreq]
  exact hid te hte

theorem Faultless.starts : r.starts (tes.map Prod.fst) =
    (allPushes (r.filed (tes.map Prod.fst))).map fun m => (m.1, process m.2.1.2.1, m.2.2) := by
  rw [starts_eq h.linkRounds, RunOf.filed, allPushes, List.filterMap_map, List.map_filterMap]
  apply List.filterMap_congr
  intro x hx
  have hlt := h.actor_lt hid x hx
  obtain ⟨c, entry⟩ := x
  cases entry with
  | push l key =>
    have hproc : process (toInt l.2.1) = mpiProcess l.2.1 := process_toInt hlt
    simp [startOf, Entry.rekey, Link.triple, hproc]
  | pop l ans => rfl

theorem Faultless.ends : r.ends (tes.map Prod.fst) =
    (allPops (r.filed (tes.map Prod.fst))).map
      fun m => (m.1, process m.2.1.2.2, m.2.2.getD []) := by
  rw [ends_eq h.linkRounds, RunOf.filed, allPops, List.filterMap_map, List.map_filterMap]
  apply List.filterMap_congr
  intro x hx
  have hlt := h.actor_lt hid x hx
  obtain ⟨c, entry⟩ := x
  cases entry with
  | push l key => rfl
  | pop l ans =>
    have hproc : process (toInt l.2.2) = mpiProcess l.2.2 := process_toInt hlt
    simp [endOf, Entry.rekey, Link.triple, hproc]

/-- **Where everything sent is received, in order, the links are messages**: one `StartLink`
    and one `EndLink` for each, at the two ends of its triple, with its tag and its key; and the
    tags under a triple are those it is sent with. -/
theorem Faultless.shown (he : Enough (filedReqs (tes.map Prod.snd)))
    (hall : ∀ k, takeTags k (Converter.filed tes) = putTags k (Converter.filed tes)) :
    ∃ ms : List (τ × Triple × Str),
      r.starts (tes.map Prod.fst) = ms.map (fun m => (m.1, process m.2.1.2.1, m.2.2)) ∧
      (r.ends (tes.map Prod.fst)).Perm (ms.map fun m => (m.1, process m.2.1.2.2, m.2.2)) ∧
      (ms.length ≤ 2 ^ 64 → (ms.map fun m => m.2.2).Nodup) ∧
      ∀ k, (ms.filter fun m => m.2.1 = k).map Prod.fst =
        putTags k (Converter.filed tes) := by
  have hmatched : ∀ k, pops k (r.filed (tes.map Prod.fst)) =
      (pushes k (r.filed (tes.map Prod.fst))).map fun p => (p.1, some p.2) := by
    intro k
    have htags : takeTags k ((r.filed (tes.map Prod.fst)).map fun x => (x.1, x.2.req)) =
        putTags k ((r.filed (tes.map Prod.fst)).map fun x => (x.1, x.2.req)) := by
      rw [h.filed_requests]
      exact hall k
    have hlen : (pops k (r.filed (tes.map Prod.fst))).length =
        (pushes k (r.filed (tes.map Prod.fst))).length := by
      rw [← List.length_map (f := Prod.fst), map_fst_pops, htags, ← map_fst_pushes,
        List.length_map]
    rw [h.serves.matched (h.enough he) (htags ▸ List.prefix_refl _), hlen, List.take_length]
  refine ⟨allPushes (r.filed (tes.map Prod.fst)), h.starts hid, ?_, h.nodup_keys, ?_⟩
  · rw [h.ends hid]
    refine ((allPops_perm hmatched).map _).trans (List.Perm.of_eq ?_)
    rw [List.map_map]
    rfl
  · intro k
    rw [tags_allPushes, map_fst_pushes, h.filed_requests]

/-- **Where one triple is used, the links follow its queue**: the `j`-th `EndLink` has the key
    of the `j`-th `StartLink`, whatever their tags are. -/
theorem Faultless.shown_key (he : Enough (filedReqs (tes.map Prod.snd))) {k : Triple}
    (hkey : ∀ x ∈ Converter.filed tes, x.2 = .put k ∨ x.2 = .take k) :
    ∃ keys : List Str, keys.length = (putTags k (Converter.filed tes)).length ∧
      r.starts (tes.map Prod.fst) = ((putTags k (Converter.filed tes)).zip keys).map
        (fun m => (m.1, process k.2.1, m.2)) ∧
      r.ends (tes.map Prod.fst) = ((takeTags k (Converter.filed tes)).zip keys).map
        (fun m => (m.1, process k.2.2, m.2)) ∧
      (keys.length ≤ 2 ^ 64 → keys.Nodup) := by
  have hone : ∀ x ∈ r.filed (tes.map Prod.fst), x.2.key = k := by
    intro x hx
    have hreq : (x.1, x.2.req) ∈ Converter.filed tes := by
      rw [← h.filed_requests]
      exact List.mem_map_of_mem hx
    obtain ⟨c, entry⟩ := x
    cases entry <;> simpa [Entry.req, Entry.key] using hkey _ hreq
  have hpush := allPushes_of_key hone
  have hanswers := h.serves.answers_eq (by rw [List.map_map]; exact h.enough he) k
  rw [← map_snd_pops, ← map_snd_pushes, List.length_map] at hanswers
  have hstarts := h.starts hid
  have hends := h.ends hid
  have hnodup := h.nodup_keys
  rw [hpush, List.map_map] at hstarts
  rw [allPops_of_key hone, List.map_map] at hends
  rw [hpush, List.map_map, List.length_map] at hnodup
  rw [← h.filed_requests, ← map_fst_pushes, ← map_fst_pops]
  generalize r.filed (tes.map Prod.fst) = l at hanswers hstarts hends hnodup ⊢
  refine ⟨(pushes k l).map Prod.snd, by simp, ?_, ?_,
    by simpa [Function.comp_def] using hnodup⟩
  · rw [hstarts, List.zip_map', List.map_map]
    rfl
  · -- the `j`-th answer is the `j`-th key
    have hpops := eq_zip_of_answers hanswers
    rw [hends]
    conv_lhs => rw [hpops]
    rw [List.map_map]
    rfl

end

end Converter
end Akypuera

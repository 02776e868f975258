import Akypuera.Converter.Links

/-!
# Which send a receive is linked to

The converter should keep one FIFO queue for each kind of link and each pair of ranks. What
it keeps is one for each *triple*, and different links can share a triple: `AKY_KEY_NT1` and
`AKY_KEY_1TN` are the same text, and ranks go through an `int`. So the pairing is right
**exactly when the links that share a queue take turns** (`InTurn`): whenever a receive finds
its queue occupied, the oldest send in it is one of its own kind and its own ranks.

That is a condition on the events alone. It holds by itself where no two links in flight share
a queue, and fails as soon as a scatter's receive finds a gather's send.
-/

set_option autoImplicit false

namespace Akypuera
namespace Converter

open CText Code Keys Fifo

/-- The events of a stream that the loop takes: those before one the process dies on. -/
def taken (args : Arguments) (es : List Event) : List Event := es.takeWhile (passes args)

/-- The individual sends and receives of a stream. -/
def operations (args : Arguments) (es : List Event) : List (Req Link) :=
  (taken args es).flatMap individual

/-- **The pairing is right**: the run has one link for each individual operation, and each
    individual receive has the key of the earliest send of its family and its ranks that no
    earlier receive took, or none, and a report, where there is no such send. -/
def Paired {σ : Type} (args : Arguments) (es : List Event) (r : RunOf σ) : Prop :=
  r.links.map Entry.req = operations args es ∧ Serves Queues.empty r.links

instance {σ : Type} (args : Arguments) (es : List Event) (r : RunOf σ) : Decidable (Paired args es r) :=
  inferInstanceAs (Decidable (_ ∧ _))

/-- **When the links of a queue take turns.** -/
def TakeTurns (args : Arguments) (es : List Event) : Prop :=
  InTurn Link.triple Queues.empty (operations args es)

instance (args : Arguments) (es : List Event) : Decidable (TakeTurns args es) :=
  inferInstanceAs (Decidable (InTurn _ _ _))

/-- How many keys a stream makes. -/
def sends (args : Arguments) (es : List Event) : Nat :=
  KeyStore.puts ((operations args es).map reqOp)

theorem convert_links {args : Arguments} (hl : args.noLinks = false)
    (hi : args.ignoreErrors = true) (es : List Event) :
    (convert args none es).rounds.map Prod.fst = taken args es ∧
      (convert args none es).links = linkLog (KeyStore.init none) (operations args es) := by
  obtain ⟨hrounds, hlinks, _⟩ :=
    loop_links hl (show (State.init none).fail = false from rfl) es (Or.inl hi)
  exact ⟨hrounds, hlinks⟩

/-- Without an end to the counts, the pairing is right when the links of a queue take turns, and only
    then, as long as the keys are distinct. -/
theorem paired_convert (args : Arguments) (hl : args.noLinks = false)
    (hi : args.ignoreErrors = true) (es : List Event) :
    (TakeTurns args es → Paired args es (convert args none es)) ∧
      (sends args es ≤ 2 ^ 64 → Paired args es (convert args none es) → TakeTurns args es) := by
  have hu : (KeyStore.init none).Unbounded := rfl
  obtain ⟨_, hlinks⟩ := convert_links hl hi es
  have hreq : (convert args none es).links.map Entry.req = operations args es := by
    rw [hlinks, linkLog_req]
  have hserves := serves_linkLog (KeyStore.tracks_init none) hu (operations args es)
  rw [← hlinks] at hserves
  refine ⟨fun hturn => ⟨hreq, ?_⟩, fun hsends hpaired => ?_⟩
  · refine serves_of_inTurn hserves ?_
    rw [hreq]
    exact hturn
  · have hnodup : ∀ k, (pushed k
        ((convert args none es).links.map (Entry.rekey Link.triple))).Nodup := by
      intro k
      refine List.Nodup.sublist (pushed_sublist k _) ?_
      rw [hlinks, linkLog_rekey]
      exact KeyStore.nodup_log hu hsends
    have hturn := inTurn_of_serves hserves hpaired.2 hnodup
    rw [hreq] at hturn
    exact hturn

/-- A message and its receipt. -/
def oneMessage : List Event :=
  [.ofRecord 0 0 (rstEventIil akyPtpSend 1 40 0), .ofRecord 1 1 (rstEventI akyPtpRecv 0)]

end Converter
end Akypuera

import Akypuera.Converter.Reached

/-!
# The keys of `StartLink`s, and the size of the key table

`aky_key_init` asks `hcreate_r` for `AKY_KEY_TABLE_SIZE` entries, and a table holds one entry for
each triple that a key was ever put under. Once it is full, `aky_put_key` answers a further
triple with `NULL` and a zeroed buffer, and no caller looks at the answer: a `StartLink` is
written with what is in the buffer. So every link carries a key of its own **exactly when the
sends of the run touch no more triples than the table has entries** (`keyed_iff`), leaving aside
a counter that comes round.
-/

set_option autoImplicit false

namespace Akypuera
namespace Converter

open CText Code Keys Fifo Search

/-- The keys of the `StartLink`s of a trace, in order. -/
def startKeys (ps : List Paje) : List Str :=
  ps.filterMap fun
    | .startLink _ _ _ _ _ key _ => some key
    | _ => none

/-- **Every link start carries its own key**: it is not empty, and no earlier one has it. -/
structure Keyed (ps : List Paje) : Prop where
  nonempty : ∀ key ∈ startKeys ps, key ≠ []
  distinct : (startKeys ps).Nodup

variable {args : Arguments}

theorem startKeys_eq (ps : List Paje) :
    startKeys ps = (ps.filterMap Paje.key).filterMap Sum.getLeft? := by
  rw [List.filterMap_filterMap]
  exact List.filterMap_congr fun p _ => by cases p <;> rfl

theorem getLeft_shownKey (l : List (Entry Link Str)) :
    (l.map shownKey).filterMap Sum.getLeft? = allPushed l := by
  induction l with
  | nil => rfl
  | cons entry l ih => cases entry <;> simp [shownKey, allPushed, List.filterMap_cons, ih]

theorem allPushed_rekey (l : List (Entry Link Str)) :
    allPushed (l.map (Entry.rekey Link.triple)) = allPushed l := by
  induction l with
  | nil => rfl
  | cons entry l ih => cases entry <;> simp [Entry.rekey, allPushed, ih]

/-- The keys of the `StartLink`s are those the store answered its puts with. -/
theorem startKeys_convert (hl : args.noLinks = false) (cap : Option Nat) (es : List Event) :
    startKeys (convert args cap es).trace =
      allPushed (freshLog cap ((reached args cap es).flatMap individual)) := by
  rw [startKeys_eq, convert_shown hl, getLeft_shownKey]

/-! ## Keys that are not empty -/

theorem mem_allPushed {κ : Type} {v : Str} {l : List (Entry κ Str)} :
    v ∈ allPushed l ↔ ∃ k, .push k v ∈ l := by
  induction l with
  | nil => simp [allPushed]
  | cons entry l ih => cases entry <;> simp [allPushed, ih, exists_or]

theorem refused_iff {κ : Type} {entry : Entry κ Str} :
    refused entry = true ↔ ∃ k, entry = .push k [] := by
  cases entry with
  | push k v => cases v <;> simp [refused]
  | pop k ans => simp [refused]

/-- No key is empty exactly when no put is turned away. -/
theorem nonempty_iff (cap : Option Nat) (rs : List (Req Link)) :
    (∀ key ∈ allPushed (freshLog cap rs), key ≠ []) ↔
      admitted cap [] (filing rs) = filing rs := by
  obtain ⟨hreq, -, hkeys⟩ := keptLog_spec cap rs
  have hall : ((freshLog cap rs).map (Entry.rekey Link.triple)).map Entry.req = filing rs := by
    rw [List.map_map, filing]
    conv => rhs; rw [← linkLog_req (KeyStore.init cap) rs, List.map_map]
    exact List.map_congr_left fun entry _ => Entry.req_rekey _ entry
  rw [← allPushed_rekey]
  constructor
  · intro hne
    have hkept : keptLog cap rs = (freshLog cap rs).map (Entry.rekey Link.triple) := by
      apply List.filter_eq_self.mpr
      intro entry hmem
      rw [Bool.not_eq_true', Bool.eq_false_iff, Ne, refused_iff]
      rintro ⟨k, rfl⟩
      exact hne [] (mem_allPushed.mpr ⟨k, hmem⟩) rfl
    rw [← hreq, hkept, hall]
  · intro hadm key hkey hempty
    have hlen := congrArg List.length (hreq.trans (hadm.trans hall.symm))
    rw [List.length_map, List.length_map] at hlen
    have hkept : keptLog cap rs = (freshLog cap rs).map (Entry.rekey Link.triple) :=
      (List.filter_sublist).eq_of_length hlen
    rw [← hkept, hkeys, List.mem_map] at hkey
    obtain ⟨stamp, -, rfl⟩ := hkey
    exact linkKey_ne_nil _ _ _ hempty

/-- **When all keys are fresh**: no put is turned away, and the counter has not come round
    between two sends of the same ranks. -/
theorem fresh_iff (cap : Option Nat) (rs : List (Req Link)) :
    ((∀ key ∈ allPushed (freshLog cap rs), key ≠ []) ∧ (allPushed (freshLog cap rs)).Nodup) ↔
      admitted cap [] (filing rs) = filing rs ∧ (stamps (putKeys (filing rs))).Nodup := by
  rw [nonempty_iff]
  apply and_congr_right
  intro hadm
  obtain ⟨hreq, -, hkeys⟩ := keptLog_spec cap rs
  have hkept : keptLog cap rs = (freshLog cap rs).map (Entry.rekey Link.triple) := by
    apply List.filter_eq_self.mpr
    intro entry hmem
    rw [Bool.not_eq_true', Bool.eq_false_iff, Ne, refused_iff]
    rintro ⟨k, rfl⟩
    refine (nonempty_iff cap rs).mpr hadm [] ?_ rfl
    rw [← allPushed_rekey]
    exact mem_allPushed.mpr ⟨k, hmem⟩
  rw [← allPushed_rekey, ← hkept, hkeys, hadm, List.nodup_map_iff stampKey_injective]

/-! ## The size of the table -/

/-- The sends that a run with an unlimited table gets to, as they are filed. -/
def sendsReached (args : Arguments) (es : List Event) : List Triple :=
  putKeys (filedReqs (reached args none es))

/-- Two tables that admit the same operations take a run equally far. -/
theorem reachedFrom_congr {cap cap' : Option Nat} {before es : List Event}
    (h : ∀ es', es' <+: before ++ reachedFrom args cap before es →
      admitted cap [] (filedReqs es') = admitted cap' [] (filedReqs es')) :
    reachedFrom args cap before es = reachedFrom args cap' before es := by
  induction es generalizing before with
  | nil => rfl
  | cons e es ih =>
    rw [reachedFrom] at h ⊢
    rw [reachedFrom]
    cases hp : passes args e with
    | false => rfl
    | true =>
      rw [hp, if_pos rfl] at h
      rw [if_pos rfl, if_pos rfl]
      have hgo : goesOn args cap (before ++ [e]) = goesOn args cap' (before ++ [e]) := by
        have hpre : before ++ [e] <+: before ++ e ::
            (if goesOn args cap (before ++ [e]) then reachedFrom args cap (before ++ [e]) es
              else []) := ⟨_, List.append_assoc ..⟩
        rw [goesOn, goesOn, h _ hpre]
      rw [← hgo]
      cases hgo' : goesOn args cap (before ++ [e]) with
      | false => rfl
      | true =>
        rw [hgo', if_pos rfl] at h
        rw [if_pos rfl, if_pos rfl, ih (by simpa using h)]

/-- A table that is large enough for what is reached is as good as an unlimited one. -/
theorem reached_eq_of_admitted {cap cap' : Option Nat} {es : List Event}
    (h : ∀ es', es' <+: reached args cap es →
      admitted cap [] (filedReqs es') = admitted cap' [] (filedReqs es')) :
    reached args cap es = reached args cap' es :=
  reachedFrom_congr h

theorem putKeys_initial {es es' : List Event} (h : es' <+: es) :
    (putKeys (filedReqs es')).toFinset ⊆ (putKeys (filedReqs es)).toFinset := by
  obtain ⟨rest, rfl⟩ := h
  rw [filedReqs_append, putKeys_append, List.toFinset_append]
  exact Finset.subset_union_left

theorem admitted_initial {n : Nat} {es es' : List Event} (h : es' <+: es)
    (hcard : (putKeys (filedReqs es)).toFinset.card ≤ n) :
    admitted (some n) [] (filedReqs es') = admitted none [] (filedReqs es') := by
  rw [admitted_none]
  exact (admitted_eq_self_iff n _).mpr ((Finset.card_le_card (putKeys_initial h)).trans hcard)

/-- **The sends fit into the table or they do not**, however the run is cut short. -/
theorem admitted_reached_iff (n : Nat) (es : List Event) :
    admitted (some n) [] (filedReqs (reached args (some n) es)) =
        filedReqs (reached args (some n) es) ↔
      (sendsReached args es).toFinset.card ≤ n := by
  rw [admitted_eq_self_iff]
  constructor
  · intro hcard
    have hsame := reached_eq_of_admitted fun es' h => admitted_initial h hcard
    rwa [hsame] at hcard
  · intro hcard
    have hsame : reached args none es = reached args (some n) es :=
      reached_eq_of_admitted fun es' h => (admitted_initial h hcard).symm
    rwa [sendsReached, hsame] at hcard

theorem keyed_iff (hl : args.noLinks = false) (n : Nat) (es : List Event) :
    Keyed (convert args (some n) es).trace ↔
      (sendsReached args es).toFinset.card ≤ n ∧ (stamps (sendsReached args es)).Nodup := by
  have hfresh := fresh_iff (some n) ((reached args (some n) es).flatMap individual)
  rw [← startKeys_convert hl] at hfresh
  have hkeyed : Keyed (convert args (some n) es).trace ↔
      (∀ key ∈ startKeys (convert args (some n) es).trace, key ≠ []) ∧
        (startKeys (convert args (some n) es).trace).Nodup :=
    ⟨fun h => ⟨h.nonempty, h.distinct⟩, fun h => ⟨h.1, h.2⟩⟩
  rw [hkeyed, hfresh]
  refine (and_congr_right fun hadm => ?_).trans (and_congr_left fun _ => admitted_reached_iff n es)
  have hcard := (admitted_eq_self_iff n _).mp hadm
  have hsame := reached_eq_of_admitted fun es' h => admitted_initial h hcard
  rw [sendsReached, ← hsame]
  rfl

/-- **Every link start carries its own key exactly when the sends of the run touch no more
    triples than the table has entries**, and the counter does not come round between two sends
    of the same ranks. -/
theorem convert_keyed (args : Arguments) (hl : args.noLinks = false) (es : List Event) :
    Keyed (convert args (some (hcreateSize akyKeyTableSize)) es).trace ↔
      (sendsReached args es).toFinset.card ≤ 1009 ∧ (stamps (sendsReached args es)).Nodup := by
  rw [hcreateSize_akyKeyTableSize]
  exact keyed_iff hl 1009 es

theorem convert_keyed_oneMessage :
    Keyed (convert ⟨false, false, false⟩ (some (hcreateSize akyKeyTableSize)) oneMessage).trace :=
  (convert_keyed ⟨false, false, false⟩ rfl oneMessage).mpr (by decide +kernel)

/-- A send to all others needs an entry for each of them. -/
theorem card_oneTxSend {e : Event} {f : Family} (h : arm e.type = .oneTxSend f) :
    (putKeys (filedReqs [e])).toFinset.card = (others e).length := by
  have hkeys : putKeys (filedReqs [e]) =
      (others e).map fun rank => (f.keyc, toInt e.id1, rank.toInt32) := by
    simp only [filedReqs, List.flatMap_singleton, individual, h, List.map_map]
    generalize others e = ranks
    induction ranks with
    | nil => rfl
    | cons rank ranks ih =>
      simp only [List.map_cons, Function.comp_apply, Req.rekey, Link.triple, putKeys, ih,
        toInt_toUInt64]
  have hranks : (ranksBelow (e.vUint32 0)).Nodup := by
    refine List.Nodup.map_on (fun i hi j hj heq => ?_) List.nodup_range
    have hlt : (e.vUint32 0).toNat < UInt32.size := (e.vUint32 0).toNat_lt
    rw [List.mem_range] at hi hj
    have hnat := congrArg UInt32.toNat heq
    rwa [UInt32.toNat_ofNat_of_lt' (by omega), UInt32.toNat_ofNat_of_lt' (by omega)] at hnat
  have hinj : Function.Injective fun rank : UInt32 => (f.keyc, toInt e.id1, rank.toInt32) := by
    intro rank rank' heq
    have hrank : rank.toInt32 = rank'.toInt32 := (Prod.mk.inj (Prod.mk.inj heq).2).2
    rw [← UInt32.toUInt32_toInt32 rank, hrank, UInt32.toUInt32_toInt32]
  have hothers : (others e).Nodup := hranks.filter _
  rw [hkeys, List.toFinset_card_of_nodup (hothers.map hinj), List.length_map]

/-- Rank 0 scatters over 1012 ranks. -/
def wideScatter : List Event := [.ofRecord 0 0 (rstEventIil aky1tnSend 1012 40 2)]

/-- Two destinations too many for the table. -/
theorem convert_not_keyed :
    ¬ Keyed (convert ⟨false, false, false⟩ (some (hcreateSize akyKeyTableSize)) wideScatter).trace := by
  rw [hcreateSize_akyKeyTableSize, keyed_iff rfl]
  rintro ⟨hcard, -⟩
  have hpass : ∀ e ∈ wideScatter, passes ⟨false, false, false⟩ e = true := by decide +kernel
  have hreached : reached ⟨false, false, false⟩ none wideScatter = wideScatter := by
    simp [reached, wideScatter, reachedFrom, hpass _ (List.mem_singleton.mpr rfl)]
  have hlen : (others (.ofRecord 0 0 (rstEventIil aky1tnSend 1012 40 2))).length = 1011 := by
    decide +kernel
  rw [sendsReached, hreached, wideScatter,
    card_oneTxSend (f := .oneToN) (by decide +kernel), hlen] at hcard
  exact absurd hcard (by decide)

end Converter
end Akypuera

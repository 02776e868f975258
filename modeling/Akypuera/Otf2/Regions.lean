import Akypuera.Otf2.Names

/-!
# Region names in states

What `textsAfter` and `regionsAfter` say of definitions in OTF2's order: a string or a region is
there in the end unless a **smaller reference of the same kind came after it** (`Lost`), and a
string that also names a node has lost its blanks. So `otf22paje_enter` finds the names of all
regions exactly when none of this happens to them (`NamesKept`).
-/

set_option autoImplicit false

namespace Akypuera
namespace Otf2

open CText

variable {mode : Mode} {args : Arguments} {defs : List Definition}

/-! ## References -/

def Definition.stringRef : Definition → Option UInt32
  | .string self _ => some self
  | _ => none

def Definition.regionRef : Definition → Option UInt32
  | .region self _ => some self
  | _ => none

def Definition.nodeName : Definition → Option UInt32
  | .systemTreeNode _ name _ _ => some name
  | _ => none

/-- The strings that a definition uses. -/
def Definition.uses : Definition → List UInt32
  | .region _ name => [name]
  | .systemTreeNode _ name className _ => [name, className]
  | _ => []

def stringRefs (ds : List Definition) : List UInt32 := ds.filterMap Definition.stringRef

def regionRefs (ds : List Definition) : List UInt32 := ds.filterMap Definition.regionRef

def nodeNames (ds : List Definition) : List UInt32 := ds.filterMap Definition.nodeName

/-- The order of OTF2: a string comes before what uses it, and references are distinct. -/
structure WellDefined (defs : List Definition) : Prop where
  strings : (stringRefs defs).Nodup
  regions : (regionRefs defs).Nodup
  before : ∀ k (hk : k < defs.length), defs[k].uses ⊆ stringRefs (defs.take k)

/-- A smaller reference comes after `i`. -/
def Lost (refs : List UInt32) (i : UInt32) : Prop := ∃ self ∈ refs.dropWhile (· ≠ i), self < i

instance (refs : List UInt32) (i : UInt32) : Decidable (Lost refs i) :=
  List.decidableBEx _ _

theorem lost_split {before after : List UInt32} {i : UInt32} (h : i ∉ before) :
    Lost (before ++ i :: after) i ↔ ∃ self ∈ after, self < i := by
  have hdrop : (before ++ i :: after).dropWhile (· ≠ i) = i :: after := by
    have hne : ∀ j ∈ before, decide (j ≠ i) = true := fun j hj =>
      decide_eq_true fun heq => h (heq ▸ hj)
    rw [List.dropWhile_append_of_pos hne]
    exact List.dropWhile_cons_of_neg (by simp)
  rw [Lost, hdrop]
  constructor
  · rintro ⟨self, hmem, hlt⟩
    rcases List.mem_cons.mp hmem with rfl | hmem
    · exact absurd hlt (UInt32.lt_irrefl _)
    · exact ⟨self, hmem, hlt⟩
  · rintro ⟨self, hmem, hlt⟩
    exact ⟨self, List.mem_cons_of_mem _ hmem, hlt⟩

theorem mem_stringRefs {ds : List Definition} {i : UInt32} :
    i ∈ stringRefs ds ↔ ∃ text, .string i text ∈ ds := by
  rw [stringRefs, List.mem_filterMap]
  constructor
  · rintro ⟨d, hd, hi⟩
    cases d with
    | string self text => cases hi; exact ⟨text, hd⟩
    | _ => cases hi
  · rintro ⟨text, hd⟩
    exact ⟨_, hd, rfl⟩

theorem mem_nodeNames {ds : List Definition} {i : UInt32} :
    i ∈ nodeNames ds ↔ ∃ self className parent, .systemTreeNode self i className parent ∈ ds := by
  rw [nodeNames, List.mem_filterMap]
  constructor
  · rintro ⟨d, hd, hi⟩
    cases d with
    | systemTreeNode self name className parent => cases hi; exact ⟨_, _, _, hd⟩
    | _ => cases hi
  · rintro ⟨self, className, parent, hd⟩
    exact ⟨_, hd, rfl⟩

theorem Definition.reads_subset_uses (d : Definition) : d.reads mode ⊆ d.uses := by
  cases d with
  | systemTreeNode self name className parent => cases mode <;> simp [Definition.reads, Definition.uses]
  | _ => exact List.nil_subset _

/-! ## What became of a definition -/

theorem stringRefs_snoc (ds : List Definition) (d : Definition) :
    stringRefs (ds ++ [d]) = stringRefs ds ++ d.stringRef.toList := by
  rw [stringRefs, stringRefs, List.filterMap_append]
  cases h : d.stringRef <;> simp [h]

theorem nodeNames_snoc (ds : List Definition) (d : Definition) :
    nodeNames (ds ++ [d]) = nodeNames ds ++ d.nodeName.toList := by
  rw [nodeNames, nodeNames, List.filterMap_append]
  cases h : d.nodeName <;> simp [h]

theorem regionRefs_snoc (ds : List Definition) (d : Definition) :
    regionRefs (ds ++ [d]) = regionRefs ds ++ d.regionRef.toList := by
  rw [regionRefs, regionRefs, List.filterMap_append]
  cases h : d.regionRef <;> simp [h]

/-- Another reference: larger ones keep what is there, smaller ones lose it. -/
theorem refitted_of_ne {α : Type} (t : Nat → Option α) {self i : UInt32} (v : α) (h : i ≠ self) :
    refitted t self.toNat v i.toNat = if self < i then none else t i.toNat := by
  have hne : i.toNat ≠ self.toNat := fun heq => h (UInt32.toNat_inj.mp heq)
  rw [refitted, if_neg hne]
  by_cases hlt : self < i
  · have hnat := UInt32.lt_iff_toNat_lt.mp hlt
    rw [if_pos hlt, if_neg (by omega)]
  · have hnat := mt UInt32.lt_iff_toNat_lt.mpr hlt
    rw [if_neg hlt, if_pos (by omega)]

/-- **A string after its definition.** -/
theorem textsAfter_split {before after : List Definition} {i : UInt32} {text : Str}
    (h : i ∉ stringRefs after) :
    textsAfter mode (before ++ .string i text :: after) i.toNat =
      if ∃ self ∈ stringRefs after, self < i then none
      else some (if mode ≠ .flat ∧ i ∈ nodeNames after then deblank text else text) := by
  -- on the definitions after it: each one loses it, changes it or leaves it
  induction after using List.reverseRecOn with
  | nil => simp [textsAfter_snoc, Definition.texts, refitted, stringRefs, nodeNames]
  | append_singleton after d ih =>
    have happ : before ++ .string i text :: (after ++ [d]) =
        (before ++ .string i text :: after) ++ [d] := by simp
    rw [stringRefs_snoc, List.mem_append, not_or] at h
    specialize ih h.1
    rw [happ, textsAfter_snoc, stringRefs_snoc, nodeNames_snoc]
    cases d with
    | string self text' =>
      have hne : i ≠ self := fun heq => h.2 (heq ▸ List.mem_singleton_self _)
      rw [Definition.texts, refitted_of_ne _ _ hne, ih]
      by_cases hlt : self < i <;> simp [hlt, Definition.stringRef, Definition.nodeName]
    | systemTreeNode self name className parent =>
      rw [Definition.texts]
      by_cases hmode : mode = .flat
      · rw [if_pos hmode, ih]
        simp [hmode, Definition.stringRef]
      · by_cases hname : i = name
        · -- the blanks are taken out, if they are still there
          subst hname
          rw [if_neg hmode, if_pos rfl, ih]
          by_cases hmem : i ∈ nodeNames after <;>
            simp [hmode, hmem, deblank_deblank, Definition.stringRef, Definition.nodeName,
              apply_ite (Option.map deblank)]
        · rw [if_neg hmode, if_neg fun heq => hname (UInt32.toNat_inj.mp heq), ih]
          simp [hname, Definition.stringRef, Definition.nodeName]
    | region self name => simpa [Definition.texts, Definition.stringRef, Definition.nodeName] using ih
    | locationGroup self name parent =>
      simpa [Definition.texts, Definition.stringRef, Definition.nodeName] using ih
    | location self name locationType group =>
      simpa [Definition.texts, Definition.stringRef, Definition.nodeName] using ih

/-- **A region after its definition.** -/
theorem regionsAfter_split {before after : List Definition} {r name : UInt32}
    (h : r ∉ regionRefs after) :
    regionsAfter (before ++ .region r name :: after) r.toNat =
      if ∃ self ∈ regionRefs after, self < r then none else some name.toInt32 := by
  induction after using List.reverseRecOn with
  | nil => simp [regionsAfter_snoc, Definition.regions, refitted, regionRefs]
  | append_singleton after d ih =>
    have happ : before ++ .region r name :: (after ++ [d]) =
        (before ++ .region r name :: after) ++ [d] := by simp
    rw [regionRefs_snoc, List.mem_append, not_or] at h
    specialize ih h.1
    rw [happ, regionsAfter_snoc, regionRefs_snoc]
    cases d with
    | region self name' =>
      have hne : r ≠ self := fun heq => h.2 (heq ▸ List.mem_singleton_self _)
      rw [Definition.regions, refitted_of_ne _ _ hne, ih]
      by_cases hlt : self < r <;> simp [hlt, Definition.regionRef]
    | _ => simpa [Definition.regions, Definition.regionRef] using ih

/-! ## Sequences in order -/

theorem stringRefs_middle (before after : List Definition) (i : UInt32) (text : Str) :
    stringRefs (before ++ .string i text :: after) =
      stringRefs before ++ i :: stringRefs after := by
  simp [stringRefs, Definition.stringRef]

theorem regionRefs_middle (before after : List Definition) (r name : UInt32) :
    regionRefs (before ++ .region r name :: after) =
      regionRefs before ++ r :: regionRefs after := by
  simp [regionRefs, Definition.regionRef]

theorem stringRefs_split {ds : List Definition} {i : UInt32} {text : Str}
    (hnodup : (stringRefs ds).Nodup) (h : .string i text ∈ ds) :
    ∃ before after, ds = before ++ .string i text :: after ∧ i ∉ stringRefs before ∧
      i ∉ stringRefs after := by
  obtain ⟨before, after, rfl⟩ := List.append_of_mem h
  rw [stringRefs_middle, List.nodup_middle, List.nodup_cons, List.mem_append, not_or] at hnodup
  exact ⟨before, after, rfl, hnodup.1⟩

theorem regionRefs_split {ds : List Definition} {r name : UInt32}
    (hnodup : (regionRefs ds).Nodup) (h : .region r name ∈ ds) :
    ∃ before after, ds = before ++ .region r name :: after ∧ r ∉ regionRefs before ∧
      r ∉ regionRefs after := by
  obtain ⟨before, after, rfl⟩ := List.append_of_mem h
  rw [regionRefs_middle, List.nodup_middle, List.nodup_cons, List.mem_append, not_or] at hnodup
  exact ⟨before, after, rfl, hnodup.1⟩

/-- A string is there unless it is lost. -/
theorem textsAfter_isSome_iff {ds : List Definition} {i : UInt32}
    (hnodup : (stringRefs ds).Nodup) (h : i ∈ stringRefs ds) :
    (textsAfter mode ds i.toNat).isSome = true ↔ ¬ Lost (stringRefs ds) i := by
  obtain ⟨text, hmem⟩ := mem_stringRefs.mp h
  obtain ⟨before, after, rfl, hbefore, hafter⟩ := stringRefs_split hnodup hmem
  rw [textsAfter_split hafter, stringRefs_middle, lost_split hbefore]
  split <;> simp_all

/-- A region is there unless it is lost. -/
theorem regionsAfter_eq {ds : List Definition} {r name : UInt32}
    (hnodup : (regionRefs ds).Nodup) (h : .region r name ∈ ds) [Decidable (Lost (regionRefs ds) r)] :
    regionsAfter ds r.toNat = if Lost (regionRefs ds) r then none else some name.toInt32 := by
  obtain ⟨before, after, rfl, hbefore, hafter⟩ := regionRefs_split hnodup h
  have hlost : Lost (regionRefs (before ++ .region r name :: after)) r ↔
      ∃ self ∈ regionRefs after, self < r := by
    rw [regionRefs_middle, lost_split hbefore]
  rw [regionsAfter_split hafter]
  by_cases h : ∃ self ∈ regionRefs after, self < r
  · rw [if_pos h, if_pos (hlost.mpr h)]
  · rw [if_neg h, if_neg (mt hlost.mp h)]

/-- Nodes come after the strings that they are named by. -/
theorem WellDefined.not_mem_nodeNames (h : WellDefined defs) {before after : List Definition}
    {i : UInt32} {text : Str} (hsplit : defs = before ++ .string i text :: after) :
    i ∉ nodeNames before := by
  subst hsplit
  intro hmem
  obtain ⟨self, className, parent, hnode⟩ := mem_nodeNames.mp hmem
  obtain ⟨k, hk, hget⟩ := List.getElem_of_mem hnode
  have huse := h.before k (by rw [List.length_append]; omega)
    (by rw [List.getElem_append_left hk, hget]; exact List.mem_cons_self)
  rw [List.take_append_of_le_length hk.le] at huse
  have hnodup := h.strings
  rw [stringRefs_middle, List.nodup_middle, List.nodup_cons, List.mem_append, not_or] at hnodup
  exact hnodup.1.1 (((List.take_sublist k before).filterMap _).subset huse)

/-- What the table holds of a string that is not lost. -/
theorem WellDefined.textsAfter_eq (h : WellDefined defs) {i : UInt32} {text : Str}
    (hmem : .string i text ∈ defs) (hkept : ¬ Lost (stringRefs defs) i) :
    textsAfter mode defs i.toNat =
      some (if mode ≠ .flat ∧ i ∈ nodeNames defs then deblank text else text) := by
  obtain ⟨before, after, hsplit, hbefore, hafter⟩ := stringRefs_split h.strings hmem
  -- all nodes that it names come after it
  have hnodes := h.not_mem_nodeNames hsplit
  subst hsplit
  rw [stringRefs_middle, lost_split hbefore] at hkept
  have hiff : i ∈ nodeNames (before ++ .string i text :: after) ↔ i ∈ nodeNames after := by
    rw [nodeNames, List.filterMap_append, List.mem_append]
    exact or_iff_right hnodes
  rw [textsAfter_split hafter, if_neg hkept]
  simp only [hiff]

/-! ## Names in states -/

/-- What `otf22paje_enter` has to write of a region called `text`. -/
def entered (args : Arguments) (seconds : ℚ) (locationID : UInt64) (text : Str) : List Paje :=
  if args.onlyMpi ∧ ¬ "MPI_".toList <:+: text then []
  else if args.dummy ∨ args.noStates then []
  else [.pushState seconds (threadStr locationID) sState text]

/-- **The names of the regions are those of their definitions.** -/
def KeepsNames (mode : Mode) (defs : List Definition) : Prop :=
  ∃ names, Names.run mode Names.init defs = some names ∧
    (∀ args st rounds, run args mode State.init defs = some (st, rounds) → st.names = names) ∧
    ∀ r name text, .region r name ∈ defs → .string name text ∈ defs →
      ∀ args seconds locationID,
        enter args names seconds locationID r = some (entered args seconds locationID text)

/-- **What the tables can hold**: nothing that is used has been lost, and no region is called by a
    string with blanks that a node is named by as well. -/
structure NamesKept (mode : Mode) (defs : List Definition) : Prop where
  room : ∀ d ∈ defs, ∀ self ∈ d.grows, self.toNat + 1 < 2 ^ 31
  nodes : ∀ k (hk : k < defs.length), ∀ i ∈ defs[k].reads mode,
    ¬ Lost (stringRefs (defs.take k)) i
  regions : ∀ r name, .region r name ∈ defs → ¬ Lost (regionRefs defs) r
  strings : ∀ r name, .region r name ∈ defs → ¬ Lost (stringRefs defs) name
  blanks : mode ≠ .flat → ∀ r name text, .region r name ∈ defs → .string name text ∈ defs →
    name ∈ nodeNames defs → ' ' ∉ text

theorem enter_of_stateName {names : Names} {r : UInt32} {text : Str}
    (h : names.stateName r = some text) (args : Arguments) (seconds : ℚ) (locationID : UInt64) :
    enter args names seconds locationID r = some (entered args seconds locationID text) := by
  simp only [enter, h, entered, Option.bind_eq_bind, Option.bind_some]
  split
  · rfl
  · split <;> rfl

/-- Without options the state that is pushed tells the name. -/
theorem stateName_of_enter {names : Names} {r : UInt32} {text : Str}
    (h : enter ⟨false, false, false⟩ names 0 0 r = some (entered ⟨false, false, false⟩ 0 0 text)) :
    names.stateName r = some text := by
  obtain ⟨stateName, hname, h⟩ := Option.bind_eq_some_iff.mp h
  have hpush : [Paje.pushState 0 (threadStr 0) sState stateName] =
      [.pushState 0 (threadStr 0) sState text] := by
    simpa [entered] using h
  rw [hname, (Paje.pushState.inj (List.cons.inj hpush).1).2.2.2]

theorem WellDefined.used (h : WellDefined defs) {d : Definition} (hd : d ∈ defs) {i : UInt32}
    (hi : i ∈ d.uses) : ∃ text, .string i text ∈ defs := by
  obtain ⟨k, hk, rfl⟩ := List.getElem_of_mem hd
  exact mem_stringRefs.mp (((List.take_sublist k defs).filterMap _).subset (h.before k hk hi))

/-- The strings of the nodes are there when they are read. -/
theorem WellDefined.fits_iff (h : WellDefined defs) (k : Nat) (hk : k < defs.length) :
    Fits mode (defs.take k) defs[k] ↔
      (∀ self ∈ defs[k].grows, self.toNat + 1 < 2 ^ 31) ∧
        ∀ i ∈ defs[k].reads mode, ¬ Lost (stringRefs (defs.take k)) i := by
  have hnodup : (stringRefs (defs.take k)).Nodup :=
    h.strings.sublist ((List.take_sublist k defs).filterMap _)
  have hreads : ∀ i ∈ defs[k].reads mode,
      ((textsAfter mode (defs.take k) i.toNat).isSome = true ↔
        ¬ Lost (stringRefs (defs.take k)) i) := fun i hi =>
    textsAfter_isSome_iff hnodup (h.before k hk (defs[k].reads_subset_uses hi))
  exact ⟨fun hfits => ⟨hfits.room, fun i hi => (hreads i hi).mp (hfits.reads i hi)⟩,
    fun hkept => ⟨hkept.1, fun i hi => (hreads i hi).mpr (hkept.2 i hi)⟩⟩

/-- **The definitions go through when there is room for them and the nodes find their strings.** -/
theorem WellDefined.run_isSome_iff (h : WellDefined defs) :
    (Names.run mode Names.init defs).isSome = true ↔
      (∀ d ∈ defs, ∀ self ∈ d.grows, self.toNat + 1 < 2 ^ 31) ∧
        ∀ k (hk : k < defs.length), ∀ i ∈ defs[k].reads mode,
          ¬ Lost (stringRefs (defs.take k)) i := by
  rw [Otf2.run_isSome_iff]
  constructor
  · intro hfits
    refine ⟨fun d hd => ?_, fun k hk => ((h.fits_iff k hk).mp (hfits k hk)).2⟩
    obtain ⟨k, hk, rfl⟩ := List.getElem_of_mem hd
    exact ((h.fits_iff k hk).mp (hfits k hk)).1
  · rintro ⟨hroom, hnodes⟩ k hk
    exact (h.fits_iff k hk).mpr ⟨hroom _ (List.getElem_mem hk), hnodes k hk⟩

/-- A region whose name and itself are not lost. -/
theorem WellDefined.stateName_eq (h : WellDefined defs) {names : Names}
    (hrun : Names.run mode Names.init defs = some names) {r name : UInt32} {text : Str}
    (hregion : .region r name ∈ defs) (hstring : .string name text ∈ defs)
    (hroom : name.toNat < 2 ^ 31) [Decidable (Lost (regionRefs defs) r)]
    [Decidable (Lost (stringRefs defs) name)] :
    names.stateName r =
      if Lost (regionRefs defs) r ∨ Lost (stringRefs defs) name then none
      else some (if mode ≠ .flat ∧ name ∈ nodeNames defs then deblank text else text) := by
  have htables := tables_of_run hrun
  rw [Names.stateName, htables.regions, regionsAfter_eq h.regions hregion]
  by_cases hlostr : Lost (regionRefs defs) r
  · rw [if_pos hlostr, if_pos (Or.inl hlostr)]
    rfl
  · rw [if_neg hlostr, Option.bind_eq_bind, Option.bind_some,
      Cells.readAt_of_toInt (Cells.toInt_toInt32 hroom), htables.texts]
    by_cases hlost : Lost (stringRefs defs) name
    · rw [if_pos (Or.inr hlost), ← Option.not_isSome_iff_eq_none,
        textsAfter_isSome_iff h.strings (mem_stringRefs.mpr ⟨text, hstring⟩)]
      exact not_not_intro hlost
    · rw [if_neg (not_or_intro hlostr hlost), h.textsAfter_eq hstring hlost]

theorem WellDefined.keepsNames (h : WellDefined defs) (hk : NamesKept mode defs) :
    KeepsNames mode defs := by
  obtain ⟨names, hrun⟩ := Option.isSome_iff_exists.mp (h.run_isSome_iff.mpr ⟨hk.room, hk.nodes⟩)
  refine ⟨names, hrun, ?_, ?_⟩
  · intro args st rounds hst
    exact Option.some.inj ((run_names hst).symm.trans hrun)
  · intro r name text hregion hstring args seconds locationID
    refine enter_of_stateName ?_ args seconds locationID
    have hroom := hk.room _ hstring name rfl
    classical
    rw [h.stateName_eq hrun hregion hstring (by omega),
      if_neg (not_or_intro (hk.regions r name hregion) (hk.strings r name hregion))]
    by_cases hblanks : mode ≠ .flat ∧ name ∈ nodeNames defs
    · rw [if_pos hblanks,
        deblank_eq_self.mpr (hk.blanks hblanks.1 r name text hregion hstring hblanks.2)]
    · rw [if_neg hblanks]

theorem WellDefined.namesKept (h : WellDefined defs) (hk : KeepsNames mode defs) :
    NamesKept mode defs := by
  obtain ⟨names, hrun, -, henter⟩ := hk
  -- each callback went through, so there was room and the nodes found their strings
  obtain ⟨hroom, hnodes⟩ := h.run_isSome_iff.mp (Option.isSome_of_mem hrun)
  -- what is found of each region says that nothing was lost on the way, and no blank
  have hname : ∀ r name text, .region r name ∈ defs → .string name text ∈ defs →
      ¬ Lost (regionRefs defs) r ∧ ¬ Lost (stringRefs defs) name ∧
        (mode ≠ .flat → name ∈ nodeNames defs → ' ' ∉ text) := by
    intro r name text hregion hstring
    have hstate := stateName_of_enter (henter r name text hregion hstring _ 0 0)
    have hlt := hroom _ hstring name rfl
    classical
    rw [h.stateName_eq hrun hregion hstring (by omega)] at hstate
    split at hstate
    · cases hstate
    · next hkept =>
      obtain ⟨hregions, hstrings⟩ := not_or.mp hkept
      refine ⟨hregions, hstrings, fun hmode hnode => deblank_eq_self.mp ?_⟩
      rw [if_pos ⟨hmode, hnode⟩] at hstate
      exact Option.some.inj hstate
  refine ⟨hroom, hnodes, ?_, ?_, ?_⟩
  · intro r name hregion
    obtain ⟨text, hstring⟩ := h.used hregion List.mem_cons_self
    exact (hname r name text hregion hstring).1
  · intro r name hregion
    obtain ⟨text, hstring⟩ := h.used hregion List.mem_cons_self
    exact (hname r name text hregion hstring).2.1
  · intro hmode r name text hregion hstring
    exact (hname r name text hregion hstring).2.2 hmode

/-- **States are called as their regions are defined exactly when nothing was lost.** -/
theorem keepsNames_iff (h : WellDefined defs) : KeepsNames mode defs ↔ NamesKept mode defs :=
  ⟨h.namesKept, h.keepsNames⟩

/-- A string that a node and a region share, and references that do not come in order. -/
def sharedName : List Definition :=
  [.string 0 "node".toList, .string 2 "machine".toList, .systemTreeNode 0 2 0 0xFFFFFFFF,
    .string 3 "main".toList, .region 4 3, .region 7 2]

theorem sharedName_wellDefined : WellDefined sharedName :=
  ⟨by decide, by decide, by decide⟩

theorem sharedName_regions {r name : UInt32} (h : .region r name ∈ sharedName) :
    r = 4 ∧ name = 3 ∨ r = 7 ∧ name = 2 := by
  simpa [sharedName] using h

theorem sharedName_kept : NamesKept .default sharedName where
  room := by simp [sharedName, Definition.grows]
  nodes k hk i hi := by
    have hnode : k = 2 ∧ (i = 2 ∨ i = 0) := by
      simp only [sharedName, List.length_cons, List.length_nil] at hk
      interval_cases k <;> simp_all [sharedName, Definition.reads]
    obtain ⟨rfl, rfl | rfl⟩ := hnode <;> decide
  regions r name h := by
    rcases sharedName_regions h with ⟨rfl, -⟩ | ⟨rfl, -⟩ <;> decide
  strings r name h := by
    rcases sharedName_regions h with ⟨-, rfl⟩ | ⟨-, rfl⟩ <;> decide
  blanks _ r name text h htext _ := by
    have htext : text = "main".toList ∨ text = "machine".toList := by
      rcases sharedName_regions h with ⟨-, rfl⟩ | ⟨-, rfl⟩ <;> simp_all [sharedName]
    rcases htext with rfl | rfl <;> decide

theorem keepsNames_iff_shared : WellDefined sharedName ∧ KeepsNames .default sharedName :=
  ⟨sharedName_wellDefined, (keepsNames_iff sharedName_wellDefined).mpr sharedName_kept⟩

/-- A string with a smaller reference after the one of a region. -/
def backwards : List Definition :=
  [.string 5 "main".toList, .string 2 "x".toList, .region 0 5]

/-- **The name is gone**: `otf22paje_enter` reads behind the end of `string_hash`. -/
theorem not_keepsNames : WellDefined backwards ∧ ¬ KeepsNames .default backwards := by
  refine ⟨⟨by decide, by decide, by decide⟩, ?_⟩
  rintro ⟨names, hrun, -, henter⟩
  have hstate := stateName_of_enter
    (henter 0 5 "main".toList (by decide) (by decide) ⟨false, false, false⟩ 0 0)
  have hlost : (Names.run .default Names.init backwards).bind (·.stateName 0) = none := by decide
  rw [hrun, Option.bind_some, hstate] at hlost
  cases hlost

end Otf2
end Akypuera

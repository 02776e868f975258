import Akypuera.Otf2.Handlers

/-!
# Regions and their names

`otf22paje_enter` takes a region to a string through two tables, and both get the size of the last
reference that came, whatever was in them; a third callback takes the blanks out of a string in
place. What is left in the end (`textsAfter`, `regionsAfter`) is what was defined where **nothing
with a smaller reference came later**, and the string is not one that a node is named by, or has no
blanks (`NamesKept`).

The callbacks of the nodes also write to tables of their own. What they do there has no part in it:
`Names.run` is the run on the two tables alone, and agrees with any whole run (`run_names`).
-/

set_option autoImplicit false

namespace Akypuera
namespace Otf2

open CText

/-- What a definition does to the strings and regions. -/
def Names.call (mode : Mode) (names : Names) : Definition → Option Names
  | .string self text => names.string self text
  | .region self name => names.region self name
  | .systemTreeNode _ name className _ =>
      match mode with
      | .default => do
          let (names, _) ← names.deblankAt name
          let _ ← names.stringHash.read className.toNat
          return names
      | .flat => some names
      | .hostfile => (names.deblankAt name).map Prod.fst
  | _ => some names

def Names.init : Names where
  stringHash := []
  regionNameMap := []

/-- What definitions do, one after the other. -/
def Names.run (mode : Mode) (names : Names) (ds : List Definition) : Option Names :=
  ds.foldlM (Names.call mode) names

variable {mode : Mode} {args : Arguments}

/-- The groups that a definition adds: only the default mode has a callback that remembers them. -/
def Definition.newGroups (mode : Mode) : Definition → List UInt32
  | .locationGroup _ _ systemTreeParent => if mode = .default then [systemTreeParent] else []
  | _ => []

/-- What a callback leaves of the names and the groups: **the tables of the tree have no part in
    it**. -/
structure Effect (mode : Mode) (st : State) (d : Definition) (st' : State) : Prop where
  names : Names.call mode st.names d = some st'.names
  groups : st'.groups = st.groups ++ d.newGroups mode

theorem createGroup_fst (args : Arguments) (st : State) (self : UInt32)
    (parentType container nameStr : Str) :
    ∃ h, (createGroup args st self parentType container nameStr).1 =
      { st with hierarchy := h } := by
  unfold createGroup
  split
  · exact ⟨st.hierarchy, rfl⟩
  · exact ⟨_, rfl⟩

theorem Effect.of_group {st st' : State} {self name systemTreeParent : UInt32}
    {parentType container nameStr : Str} {outs : List Paje} (hmode : mode ≠ .default)
    (h : some (createGroup args st self parentType container nameStr) = some (st', outs)) :
    Effect mode st (.locationGroup self name systemTreeParent) st' := by
  obtain ⟨hierarchy, hst⟩ := createGroup_fst args st self parentType container nameStr
  have heq : st' = { st with hierarchy := hierarchy } :=
    (congrArg Prod.fst (Option.some.inj h)).symm.trans hst
  subst heq
  refine ⟨rfl, ?_⟩
  rw [Definition.newGroups, if_neg hmode, List.append_nil]

theorem Effect.of_call {st st' : State} {d : Definition} {outs : List Paje}
    (h : d.call args mode st = some (st', outs)) : Effect mode st d st' := by
  cases d with
  | string self text =>
    obtain ⟨names, hnames, heq⟩ := Option.map_eq_some_iff.mp h
    cases heq
    exact ⟨hnames, (List.append_nil _).symm⟩
  | region self name =>
    obtain ⟨names, hnames, heq⟩ := Option.map_eq_some_iff.mp h
    cases heq
    exact ⟨hnames, (List.append_nil _).symm⟩
  | systemTreeNode self name className parent =>
    cases mode with
    | default =>
      -- the name and the class are read before the tables of the tree
      obtain ⟨⟨names, nameStr⟩, hname, h⟩ := Option.bind_eq_some_iff.mp h
      obtain ⟨classStr, hclass, h⟩ := Option.bind_eq_some_iff.mp h
      obtain ⟨_, -, h⟩ := Option.bind_eq_some_iff.mp h
      obtain ⟨_, -, h⟩ := Option.bind_eq_some_iff.mp h
      obtain ⟨_, -, h⟩ := Option.bind_eq_some_iff.mp h
      cases h
      refine ⟨?_, (List.append_nil _).symm⟩
      simp only [Names.call, hname, hclass, Option.bind_eq_bind, Option.bind_some]
      rfl
    | flat =>
      cases h
      exact ⟨rfl, (List.append_nil _).symm⟩
    | hostfile =>
      obtain ⟨⟨names, nameStr⟩, hname, h⟩ := Option.bind_eq_some_iff.mp h
      obtain ⟨_, -, h⟩ := Option.bind_eq_some_iff.mp h
      cases h
      refine ⟨?_, (List.append_nil _).symm⟩
      simp only [Names.call, hname, Option.map_some]
  | locationGroup self name systemTreeParent =>
    cases mode with
    | default =>
      obtain ⟨_, -, h⟩ := Option.bind_eq_some_iff.mp h
      cases h
      exact ⟨rfl, rfl⟩
    | flat =>
      obtain ⟨_, -, h⟩ := Option.bind_eq_some_iff.mp h
      exact Effect.of_group nofun h
    | hostfile =>
      obtain ⟨_, -, h⟩ := Option.bind_eq_some_iff.mp h
      obtain ⟨_, -, h⟩ := Option.bind_eq_some_iff.mp h
      exact Effect.of_group nofun h
  | location self name locationType group =>
    obtain ⟨_, -, h⟩ := Option.bind_eq_some_iff.mp h
    obtain ⟨_, -, h⟩ := Option.bind_eq_some_iff.mp h
    obtain ⟨_, -, h⟩ := Option.bind_eq_some_iff.mp h
    obtain ⟨_, -, h⟩ := Option.bind_eq_some_iff.mp h
    obtain ⟨_, -, h⟩ := Option.bind_eq_some_iff.mp h
    cases h
    exact ⟨rfl, (List.append_nil _).symm⟩

theorem run_names {st st' : State} {ds : List Definition} {rounds : List (Definition × List Paje)}
    (h : run args mode st ds = some (st', rounds)) :
    Names.run mode st.names ds = some st'.names := by
  induction ds generalizing st rounds with
  | nil => cases h; rfl
  | cons d ds ih =>
    obtain ⟨⟨st₁, outs⟩, hcall, h⟩ := Option.bind_eq_some_iff.mp h
    obtain ⟨⟨st₂, rest⟩, hrun, h⟩ := Option.bind_eq_some_iff.mp h
    cases h
    rw [Names.run, List.foldlM_cons, (Effect.of_call hcall).names]
    exact ih hrun

/-! ## What is in the tables -/

/-- A table that is resized to the index `i` that is written. -/
def refitted {α : Type} (t : Nat → Option α) (i : Nat) (v : α) (j : Nat) : Option α :=
  if j = i then some v else if j < i then t j else none

/-- What a definition does to the strings. -/
def Definition.texts (mode : Mode) (t : Nat → Option Str) : Definition → Nat → Option Str
  | .string self text => refitted t self.toNat text
  | .systemTreeNode _ name _ _ =>
      if mode = .flat then t
      else fun j => if j = name.toNat then (t j).map deblank else t j
  | _ => t

def textsAfter (mode : Mode) (ds : List Definition) : Nat → Option Str :=
  ds.foldl (Definition.texts mode) fun _ => none

/-- What a definition does to the regions. -/
def Definition.regions (t : Nat → Option Int32) : Definition → Nat → Option Int32
  | .region self name => refitted t self.toNat name.toInt32
  | _ => t

def regionsAfter (ds : List Definition) : Nat → Option Int32 :=
  ds.foldl Definition.regions fun _ => none

/-- The tables after some definitions. -/
structure Tables (mode : Mode) (ds : List Definition) (names : Names) : Prop where
  texts : ∀ i, names.stringHash.read i = textsAfter mode ds i
  regions : ∀ i, names.regionNameMap.read i = regionsAfter ds i

/-- A string that is in the table. -/
def Names.Readable (names : Names) (i : UInt32) : Prop :=
  (names.stringHash.read i.toNat).isSome = true

/-- The references of strings that a callback reads. -/
def Definition.reads (mode : Mode) : Definition → List UInt32
  | .systemTreeNode _ name className _ =>
      match mode with
      | .default => [name, className]
      | .flat => []
      | .hostfile => [name]
  | _ => []

/-- The reference that a callback makes room for. -/
def Definition.grows : Definition → Option UInt32
  | .string self _ | .region self _ => some self
  | _ => none

/-- What a callback needs: room, and the strings it reads. -/
structure Fits (mode : Mode) (before : List Definition) (d : Definition) : Prop where
  room : ∀ self ∈ d.grows, self.toNat + 1 < 2 ^ 31
  reads : ∀ i ∈ d.reads mode, (textsAfter mode before i.toNat).isSome = true

theorem deblank_deblank (s : Str) : deblank (deblank s) = deblank s := by
  simp [deblank, List.filter_filter]

theorem deblank_eq_self {s : Str} : deblank s = s ↔ ' ' ∉ s := by
  simp only [deblank, List.filter_eq_self, decide_eq_true_eq]
  exact ⟨fun h hmem => h _ hmem rfl, fun h c hc heq => h (heq ▸ hc)⟩

theorem read_deblankAt {names names' : Names} {name : UInt32} {s : Str}
    (h : names.deblankAt name = some (names', s)) (j : Nat) :
    names'.stringHash.read j =
      if j = name.toNat then (names.stringHash.read j).map deblank
      else names.stringHash.read j := by
  obtain ⟨text, htext, h⟩ := Option.bind_eq_some_iff.mp h
  obtain ⟨cells, hcells, h⟩ := Option.bind_eq_some_iff.mp h
  cases h
  have hlt := Cells.lt_of_read htext
  rw [Cells.write_of_lt _ hlt] at hcells
  cases hcells
  split
  · next heq => rw [heq, htext]; exact Cells.read_set_self _ hlt
  · next hne => exact Cells.read_set_ne _ hne

theorem deblankAt_of_read {names : Names} {name : UInt32} {text : Str}
    (h : names.stringHash.read name.toNat = some text) :
    ∃ names', names.deblankAt name = some (names', deblank text) ∧
      names'.regionNameMap = names.regionNameMap := by
  have hlt := Cells.lt_of_read h
  refine ⟨{ names with stringHash := List.set names.stringHash name.toNat (some (deblank text)) },
    ?_, rfl⟩
  simp only [Names.deblankAt, h, Cells.write_of_lt _ hlt, Option.bind_eq_bind, Option.bind_some]
  rfl

theorem textsAfter_snoc (ds : List Definition) (d : Definition) :
    textsAfter mode (ds ++ [d]) = d.texts mode (textsAfter mode ds) := by
  simp [textsAfter]

theorem regionsAfter_snoc (ds : List Definition) (d : Definition) :
    regionsAfter (ds ++ [d]) = d.regions (regionsAfter ds) := by
  simp [regionsAfter]

variable {before : List Definition} {names : Names}

theorem Tables.string (h : Tables mode before names) {self : UInt32} (text : Str)
    (hroom : self.toNat + 1 < 2 ^ 31) :
    ∃ names', names.string self text = some names' ∧
      Tables mode (before ++ [.string self text]) names' := by
  refine ⟨{ names with stringHash := names.stringHash.refit self.toNat text }, ?_, ?_, ?_⟩
  · simp only [Names.string, Cells.write_resize, if_pos hroom, Option.bind_eq_bind,
      Option.bind_some]
    rfl
  · intro i
    rw [textsAfter_snoc, Definition.texts, refitted, ← h.texts]
    exact Cells.read_refit ..
  · intro i
    rw [regionsAfter_snoc]
    exact h.regions i

theorem Tables.region (h : Tables mode before names) {self : UInt32} (name : UInt32)
    (hroom : self.toNat + 1 < 2 ^ 31) :
    ∃ names', names.region self name = some names' ∧
      Tables mode (before ++ [.region self name]) names' := by
  refine ⟨{ names with regionNameMap := names.regionNameMap.refit self.toNat name.toInt32 },
    ?_, ?_, ?_⟩
  · simp only [Names.region, Cells.write_resize, if_pos hroom, Option.bind_eq_bind,
      Option.bind_some]
    rfl
  · intro i
    rw [textsAfter_snoc]
    exact h.texts i
  · intro i
    rw [regionsAfter_snoc, Definition.regions, refitted, ← h.regions]
    exact Cells.read_refit ..

/-- The blanks are taken out of the string of a node. -/
theorem Tables.deblankAt (h : Tables mode before names) (hmode : mode ≠ .flat)
    {self name className parent : UInt32} (hname : (textsAfter mode before name.toNat).isSome = true) :
    ∃ names' text, names.deblankAt name = some (names', text) ∧
      Tables mode (before ++ [.systemTreeNode self name className parent]) names' := by
  obtain ⟨text, htext⟩ := Option.isSome_iff_exists.mp hname
  obtain ⟨names', hnames', hregions⟩ := deblankAt_of_read ((h.texts name.toNat).trans htext)
  refine ⟨names', _, hnames', ?_, ?_⟩
  · intro i
    rw [textsAfter_snoc, Definition.texts, if_neg hmode, read_deblankAt hnames', h.texts]
  · intro i
    rw [regionsAfter_snoc, hregions]
    exact h.regions i

/-- **One definition**: with room and with its strings there, it goes through. -/
theorem Tables.call (h : Tables mode before names) {d : Definition} (hfits : Fits mode before d) :
    ∃ names', Names.call mode names d = some names' ∧ Tables mode (before ++ [d]) names' := by
  cases d with
  | string self text => exact h.string text (hfits.room self rfl)
  | region self name => exact h.region name (hfits.room self rfl)
  | systemTreeNode self name className parent =>
    cases mode with
    | flat =>
      refine ⟨names, rfl, ?_, ?_⟩
      · intro i
        rw [textsAfter_snoc, Definition.texts, if_pos rfl]; exact h.texts i
      · intro i
        rw [regionsAfter_snoc]; exact h.regions i
    | default =>
      obtain ⟨names', text, hname, htables⟩ := @Tables.deblankAt _ _ _ h nofun self name className
        parent (hfits.reads name (by simp [Definition.reads]))
      -- the class is still there
      have hclass : (names'.stringHash.read className.toNat).isSome = true := by
        rw [read_deblankAt hname, h.texts]
        have hbefore := hfits.reads className (by simp [Definition.reads])
        split
        · rw [Option.isSome_map]; exact hbefore
        · exact hbefore
      obtain ⟨classStr, hclass⟩ := Option.isSome_iff_exists.mp hclass
      refine ⟨names', ?_, htables⟩
      simp only [Names.call, hname, hclass, Option.bind_eq_bind, Option.bind_some]
      rfl
    | hostfile =>
      obtain ⟨names', text, hname, htables⟩ := @Tables.deblankAt _ _ _ h nofun self name className
        parent (hfits.reads name (by simp [Definition.reads]))
      exact ⟨names', by simp only [Names.call, hname, Option.map_some], htables⟩
  | locationGroup self name systemTreeParent =>
    refine ⟨names, rfl, ?_, ?_⟩
    · intro i
      rw [textsAfter_snoc]; exact h.texts i
    · intro i
      rw [regionsAfter_snoc]; exact h.regions i
  | location self name locationType group =>
    refine ⟨names, rfl, ?_, ?_⟩
    · intro i
      rw [textsAfter_snoc]; exact h.texts i
    · intro i
      rw [regionsAfter_snoc]; exact h.regions i

theorem read_of_deblankAt {names' : Names} {name : UInt32} {text : Str}
    (h : names.deblankAt name = some (names', text)) : names.Readable name := by
  obtain ⟨string, hstring, -⟩ := Option.bind_eq_some_iff.mp h
  exact Option.isSome_of_mem hstring

/-- What a callback reads is there, also what it reads after it has changed the table. -/
theorem reads_of_call {d : Definition} {names' : Names} (h : Names.call mode names d = some names') :
    ∀ i ∈ d.reads mode, names.Readable i := by
  cases d with
  | systemTreeNode self name className parent =>
    cases mode with
    | flat => exact nofun
    | default =>
      obtain ⟨⟨names₁, text⟩, hname, hcall⟩ := Option.bind_eq_some_iff.mp h
      obtain ⟨classStr, hclass, -⟩ := Option.bind_eq_some_iff.mp hcall
      intro i hi
      rcases List.mem_pair.mp hi with rfl | rfl
      · exact read_of_deblankAt hname
      · have hread := Option.isSome_of_mem hclass
        rw [read_deblankAt hname] at hread
        split at hread
        · rwa [Option.isSome_map] at hread
        · exact hread
    | hostfile =>
      obtain ⟨⟨names₁, text⟩, hname, -⟩ := Option.map_eq_some_iff.mp h
      intro i hi
      rw [List.mem_singleton.mp hi]
      exact read_of_deblankAt hname
  | _ => exact nofun

theorem room_of_write {α : Type} {cells cells' : Cells α} {self : UInt32} {v : α}
    (h : (cells.resize (self + 1).toInt32).write self.toNat v = some cells') :
    self.toNat + 1 < 2 ^ 31 := by
  by_contra hroom
  rw [Cells.write_resize, if_neg hroom] at h
  cases h

/-- **And only then.** -/
theorem Tables.fits (h : Tables mode before names) {d : Definition} {names' : Names}
    (hcall : Names.call mode names d = some names') : Fits mode before d := by
  refine ⟨?_, fun i hi => h.texts i.toNat ▸ reads_of_call hcall i hi⟩
  cases d with
  | string self text =>
    obtain ⟨cells, hcells, -⟩ := Option.bind_eq_some_iff.mp hcall
    intro i hi
    cases hi
    exact room_of_write hcells
  | region self name =>
    obtain ⟨cells, hcells, -⟩ := Option.bind_eq_some_iff.mp hcall
    intro i hi
    cases hi
    exact room_of_write hcells
  | _ => exact nofun

/-! ## Whole runs -/

theorem Tables.init : Tables mode [] Names.init := ⟨fun _ => rfl, fun _ => rfl⟩

theorem run_snoc (ds : List Definition) (d : Definition) :
    Names.run mode names (ds ++ [d]) = (Names.run mode names ds).bind (Names.call mode · d) := by
  simp [Names.run]

/-- Whatever goes through leaves the tables that `textsAfter` and `regionsAfter` say. -/
theorem tables_of_run {ds : List Definition} (h : Names.run mode Names.init ds = some names) :
    Tables mode ds names := by
  induction ds using List.reverseRecOn generalizing names with
  | nil => cases h; exact Tables.init
  | append_singleton ds d ih =>
    -- what went through fitted, and what fits leaves the tables of one more definition
    rw [run_snoc] at h
    obtain ⟨names₁, hrun, hcall⟩ := Option.bind_eq_some_iff.mp h
    obtain ⟨names₂, hcall', htables⟩ := (ih hrun).call ((ih hrun).fits hcall)
    cases hcall.symm.trans hcall'
    exact htables

/-- **The run goes through exactly when each definition fits what came before it.** -/
theorem run_isSome_iff (ds : List Definition) :
    (Names.run mode Names.init ds).isSome = true ↔
      ∀ k (hk : k < ds.length), Fits mode (ds.take k) ds[k] := by
  induction ds using List.reverseRecOn with
  | nil => exact ⟨fun _ => nofun, fun _ => rfl⟩
  | append_singleton ds d ih =>
    rw [run_snoc]
    constructor
    · -- a place before the last one, or the last one
      intro h k hk
      obtain ⟨names₂, h⟩ := Option.isSome_iff_exists.mp h
      obtain ⟨names₁, hrun, hcall⟩ := Option.bind_eq_some_iff.mp h
      rw [List.length_append, List.length_singleton] at hk
      by_cases hlt : k < ds.length
      · rw [List.getElem_append_left hlt, List.take_append_of_le_length hlt.le]
        exact ih.mp (Option.isSome_of_mem hrun) k hlt
      · obtain rfl : k = ds.length := by omega
        rw [List.getElem_concat_length rfl, List.take_left]
        exact (tables_of_run hrun).fits hcall
    · intro h
      have hprefix : (Names.run mode Names.init ds).isSome = true := by
        apply ih.mpr
        intro k hk
        have hfits := h k (by rw [List.length_append]; omega)
        rwa [List.getElem_append_left hk, List.take_append_of_le_length hk.le] at hfits
      obtain ⟨names₁, hrun⟩ := Option.isSome_iff_exists.mp hprefix
      have hfits := h ds.length (by simp)
      rw [List.getElem_concat_length rfl, List.take_left] at hfits
      obtain ⟨names₂, hcall, -⟩ := (tables_of_run hrun).call hfits
      rw [hrun, Option.bind_some, hcall]
      rfl

end Otf2
end Akypuera

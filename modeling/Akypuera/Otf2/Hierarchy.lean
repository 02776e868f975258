import Akypuera.Otf2.Hostfile
import Akypuera.Lib.Firsts

/-!
# The hierarchy of a hostfile

Every line of a hostfile is a path from its host up to the root (`pathOf`), and reading the line
performs the places of the path from the top down (`nfLine_eq`): it declares the type of each and
creates its container, unless the name is there already. So of all places of all lines **the first
of each name is created**, and the types and containers come in order (`Ordered`) whatever the names.

The written hierarchy is the one of the file (`Faithful`) exactly when a name always stands in the
same place, and nothing new stands after the last newline (`Consistent`).
-/

set_option autoImplicit false

namespace Akypuera
namespace Otf2

open CText Firsts

/-- A container with its type, and the type and the container above. -/
structure Place where
  name : Str
  type : Str
  parentType : Str
  parent : Str
  deriving DecidableEq

/-- The declaration of its type. -/
def Place.define (p : Place) : Paje := .defineContainerType p.type p.parentType p.type

/-- Its creation. -/
def Place.create (p : Place) : Paje := .createContainer 0 p.name p.type p.parent p.name

/-- The names and types of fields from level `j` up. -/
def levels : Nat → List Str → List (Str × Str)
  | _, [] => []
  | j, x :: xs => (x, levelType j) :: levels (j + 1) xs

/-- The names and types of a line, from its host up. -/
def pathOf (host cluster : Str) (xs : List Str) : List (Str × Str) :=
  (host, sHost) :: (cluster, levelType 0) :: levels 1 xs

/-- The first of a path, below the rest of it. -/
def placeIn (name type : Str) (above : List (Str × Str)) : Place where
  name := name
  type := type
  parentType := (above.head?.map Prod.snd).getD sZero
  parent := (above.head?.map Prod.fst).getD sZero

/-- The places of a path, from the top down. -/
def placesOf : List (Str × Str) → List Place
  | [] => []
  | (name, type) :: above => placesOf above ++ [placeIn name type above]

/-- A line with a host in a cluster, and fields above. -/
structure HostLine (line host cluster : Str) (xs : List Str) : Prop where
  fields : strtok '.' (cstr line) = host :: xs
  pair : ∃ name, strtok '-' host = [cluster, name]

/-- The places of a line. -/
def places (line : Str) : List Place :=
  match strtok '.' (cstr line) with
  | host :: xs =>
      match strtok '-' host with
      | [cluster, _] => placesOf (pathOf host cluster xs)
      | _ => []
  | [] => []

theorem HostLine.places_eq {line host cluster : Str} {xs : List Str}
    (h : HostLine line host cluster xs) : places line = placesOf (pathOf host cluster xs) := by
  obtain ⟨name, hpair⟩ := h.pair
  simp only [places, h.fields, hpair]

/-! ## What places write -/

/-- The events of some places, when there are already these types and containers. -/
def write : List Str → List Str → List Place → List Paje
  | _, _, [] => []
  | types, names, p :: ps =>
      (if p.type ∈ types then [] else [p.define]) ++ (if p.name ∈ names then [] else [p.create]) ++
      write (if p.type ∈ types then types else types ++ [p.type])
        (if p.name ∈ names then names else names ++ [p.name]) ps

theorem write_append (types names : List Str) (ps qs : List Place) :
    write types names (ps ++ qs) = write types names ps ++
      write (keysAfter Place.type types ps) (keysAfter Place.name names ps) qs := by
  induction ps generalizing types names with
  | nil => simp [write, keysAfter, firsts]
  | cons p ps ih =>
    by_cases ht : p.type ∈ types <;> by_cases hn : p.name ∈ names <;>
      simp [write, ih, keysAfter_cons, ht, hn]

/-- The places add their types and names to the tables. -/
def Hierarchy.after (h : Hierarchy) (ps : List Place) : Hierarchy :=
  { h with types := keysAfter Place.type h.types ps, containers := keysAfter Place.name h.containers ps }

theorem after_append (h : Hierarchy) (ps qs : List Place) :
    h.after (ps ++ qs) = (h.after ps).after qs := by
  simp only [Hierarchy.after, keysAfter_append]

/-- A part of the source performs some places. -/
structure Performs (h : Hierarchy) (ps : List Place) (r : Hierarchy × List Paje) : Prop where
  state : r.1 = h.after ps
  outs : r.2 = write h.types h.containers ps

theorem Performs.append {h : Hierarchy} {ps qs : List Place} {r r' : Hierarchy × List Paje}
    (hr : Performs h ps r) (hr' : Performs r.1 qs r') :
    Performs h (ps ++ qs) (r'.1, r.2 ++ r'.2) where
  state := by rw [hr'.state, hr.state, after_append]
  outs := by
    rw [hr'.outs, hr.outs, hr.state, write_append]
    rfl

/-- The declaration and the creation of a place. -/
def nfPlace (h : Hierarchy) (name type : Str) (containerType container : Option Str) :
    Hierarchy × List Paje :=
  let (h, outs₁) := nfContainerTypeDeclare h type containerType
  let (h, outs₂) := nfContainerCreate h name type container
  (h, outs₁ ++ outs₂)

theorem performs_nfPlace (h : Hierarchy) (p : Place) {containerType container : Option Str}
    (htype : containerType.getD sZero = p.parentType) (hparent : container.getD sZero = p.parent) :
    Performs h [p] (nfPlace h p.name p.type containerType container) := by
  constructor <;> by_cases ht : p.type ∈ h.types <;> by_cases hn : p.name ∈ h.containers <;>
    simp [nfPlace, nfContainerTypeDeclare, nfContainerCreate, Hierarchy.after, write, keysAfter,
      firsts, Place.define, Place.create, ht, hn, htype, hparent]

theorem levels_drop {xs : List Str} {j : Nat} (hj : j < xs.length) :
    levels (j + 1) (xs.drop j) =
      (xs[j], levelType (j + 1)) :: levels (j + 2) (xs.drop (j + 1)) := by
  rw [List.drop_eq_getElem_cons hj, levels]

/-- **The loop over the levels** performs those from a level down, after the ones above it. -/
theorem performs_createLevels (host : Str) {xs : List Str} {j : Nat} (hj : j ≤ xs.length)
    (h : Hierarchy) :
    ∃ ps, placesOf (levels 1 xs) = placesOf (levels (j + 1) (xs.drop j)) ++ ps ∧
      Performs h ps (createLevels (host :: xs) j h) := by
  induction j generalizing h with
  | zero => exact ⟨[], by simp, by simp [createLevels, Hierarchy.after, keysAfter, firsts], rfl⟩
  | succ j ih =>
    have hlt : j < xs.length := hj
    obtain ⟨p, hp⟩ : ∃ p, p = placeIn xs[j] (levelType (j + 1)) (levels (j + 2) (xs.drop (j + 1))) :=
      ⟨_, rfl⟩
    -- the type and the container above are those of the field before, or the root
    have habove : (if j + 2 = (host :: xs).length then none else some (levelType (j + 2))).getD sZero =
        p.parentType ∧
        (if j + 2 = (host :: xs).length then none else (host :: xs)[j + 2]?).getD sZero = p.parent := by
      rw [hp, placeIn, List.length_cons]
      by_cases hlast : j + 1 < xs.length
      · rw [if_neg (by omega), if_neg (by omega), levels_drop hlast, List.getElem?_cons_succ,
          List.getElem?_eq_getElem hlast]
        exact ⟨rfl, rfl⟩
      · rw [if_pos (by omega), if_pos (by omega), List.drop_eq_nil_of_le (by omega)]
        exact ⟨rfl, rfl⟩
    have hplace := performs_nfPlace h p habove.1 habove.2
    obtain ⟨ps, hps, hrest⟩ := ih (Nat.le_of_lt hlt) (nfPlace h p.name p.type _ _).1
    have hp' : p.name = xs[j] ∧ p.type = levelType (j + 1) := by rw [hp]; exact ⟨rfl, rfl⟩
    refine ⟨p :: ps, ?_, ?_⟩
    · rw [hps, levels_drop hlt, placesOf, ← hp, List.append_assoc]
      rfl
    · have hboth := hplace.append hrest
      rw [hp'.1, hp'.2] at hboth
      simpa [createLevels, nfPlace, List.append_assoc, List.getElem?_eq_getElem hlt] using hboth

/-- The whole loop. -/
theorem performs_levels (host : Str) (xs : List Str) (h : Hierarchy) :
    Performs h (placesOf (levels 1 xs)) (createLevels (host :: xs) xs.length h) := by
  obtain ⟨ps, hps, hlevels⟩ := performs_createLevels host (Nat.le_refl xs.length) h
  rw [List.drop_length, levels, placesOf, List.nil_append] at hps
  exact hps ▸ hlevels

/-- **A line performs its places**, once its number of fields is the right one. -/
theorem nfLine_eq {h : Hierarchy} {line host cluster x : Str} {xs : List Str}
    (hline : HostLine line host cluster (x :: xs))
    (hdepth : h.depth.getD (xs.length + 2) = xs.length + 2) :
    nfLine h line = .ok
      ({ h.after (places line) with
          hostnames := h.hostnames ++ [host], depth := some (xs.length + 2) },
        write h.types h.containers (places line)) := by
  obtain ⟨name, hpair⟩ := hline.pair
  obtain ⟨h', hh'⟩ : ∃ h', h' = { h with depth := some (xs.length + 2) } := ⟨_, rfl⟩
  have hplaces : places line = placesOf (levels 1 (x :: xs)) ++
      [placeIn cluster (levelType 0) (levels 1 (x :: xs))] ++
      [placeIn host sHost ((cluster, levelType 0) :: levels 1 (x :: xs))] := by
    rw [hline.places_eq, pathOf, placesOf, placesOf]
  have hall := ((performs_levels host (x :: xs) h').append
    (@performs_nfPlace _ (placeIn cluster (levelType 0) (levels 1 (x :: xs)))
      (some (levelType 1)) (some x) rfl rfl)).append
    (@performs_nfPlace _ (placeIn host sHost ((cluster, levelType 0) :: levels 1 (x :: xs)))
      (some (levelType 0)) (some cluster) rfl rfl)
  rw [← hplaces] at hall
  have hlen : ¬ h.depth.getD (host :: x :: xs).length ≠ (host :: x :: xs).length :=
    fun hne => hne hdepth
  obtain ⟨r, hr, hcall⟩ : ∃ r, Performs h' (places line) r ∧
      nfLine h line = .ok (nfHostnameAdd r.1 host, r.2) := by
    refine ⟨_, hall, ?_⟩
    rw [nfLine, hline.fields]
    simp only [if_neg hlen, hpair, nfPlace, List.append_assoc, hh']
    rfl
  rw [hcall, hr.state, hr.outs, hh']
  rfl

/-! ## The whole file -/

/-- The lines that end with a newline. -/
def endedLines (text : Str) : List Str := (text.splitOn '\n').dropLast

/-- The lines of a text; the last one may go without a newline. -/
def fileLines (text : Str) : List Str :=
  if (text.splitOn '\n').getLast? = some [] then endedLines text else text.splitOn '\n'

theorem mem_fileLines_of_ended {text line : Str} (h : line ∈ endedLines text) :
    line ∈ fileLines text := by
  rw [fileLines]
  split
  · exact h
  · exact List.mem_of_mem_dropLast h

/-- Nothing stands after the last newline. -/
def Ended (text : Str) : Prop := text = [] ∨ text.getLast? = some '\n'

instance (text : Str) : Decidable (Ended text) := instDecidableOr

theorem fileLines_of_ended {text : Str} (h : Ended text) : fileLines text = endedLines text :=
  if_pos (getLast?_splitOn_eq_nil_iff.mpr h)

/-- Otherwise there is one line more. -/
theorem fileLines_of_not_ended {text : Str} (h : ¬ Ended text) :
    ∃ line, fileLines text = endedLines text ++ [line] := by
  rw [fileLines, if_neg fun hlast => h (getLast?_splitOn_eq_nil_iff.mp hlast), endedLines]
  exact ⟨_, (List.dropLast_append_getLast (List.splitOn_ne_nil '\n' text)).symm⟩

/-- The host of a line, its first field. -/
def hostOf (line : Str) : Str := (strtok '.' (cstr line)).headD []

theorem HostLine.hostOf_eq {line host cluster : Str} {xs : List Str}
    (h : HostLine line host cluster xs) : hostOf line = host := by
  rw [hostOf, h.fields, List.headD_cons]

/-- **A hostfile**: each line has `d` fields, the first of them a cluster and a host. -/
structure IsHostfile (text : Str) (d : Nat) : Prop where
  two : 2 ≤ d
  lines : ∀ line ∈ fileLines text, ∃ host cluster xs, HostLine line host cluster xs ∧
    xs.length + 1 = d

theorem nfLines_eq {h : Hierarchy} {lines : List Str} {d : Nat} (hd : 2 ≤ d)
    (hlines : ∀ line ∈ lines, ∃ host cluster xs, HostLine line host cluster xs ∧ xs.length + 1 = d)
    (hdepth : h.depth.getD d = d) :
    nfLines h lines = .ok
      ({ h.after (lines.flatMap places) with
          hostnames := h.hostnames ++ lines.map hostOf
          depth := if lines = [] then h.depth else some d },
        write h.types h.containers (lines.flatMap places)) := by
  induction lines generalizing h with
  | nil => simp [nfLines, Hierarchy.after, keysAfter, firsts, write]
  | cons line lines ih =>
    obtain ⟨host, cluster, xs, hline, hlen⟩ := hlines line List.mem_cons_self
    cases xs with
    | nil => exact absurd hlen (by simp; omega)
    | cons x xs =>
      have hfields : xs.length + 2 = d := hlen
      obtain ⟨h₁, hh₁⟩ : ∃ h₁, h₁ = { h.after (places line) with
        hostnames := h.hostnames ++ [host], depth := some (xs.length + 2) } := ⟨_, rfl⟩
      have hhere := nfLine_eq hline (by rw [hfields]; exact hdepth)
      rw [← hh₁] at hhere
      have hrest := @ih h₁ (fun l hl => hlines l (List.mem_cons_of_mem _ hl))
        (by rw [hh₁]; exact hfields)
      have hlast : (if lines = [] then h₁.depth else some d) = some d := by
        split
        · rw [hh₁, hfields]
        · rfl
      rw [hlast] at hrest
      simp only [nfLines, hhere, hrest, List.flatMap_cons, write_append, after_append]
      rw [hh₁, List.map_cons, hline.hostOf_eq]
      simp [Hierarchy.after]

/-- **What a hostfile writes** is what its places write, in turn, and the hosts of its lines are
    registered. -/
theorem nfReadAndCreateHierarchy_eq {text : Str} {d : Nat} (h : IsHostfile text d) :
    nfReadAndCreateHierarchy Hierarchy.init text = .ok
      ({ Hierarchy.init.after ((endedLines text).flatMap places) with
          hostnames := (endedLines text).map hostOf
          depth := if endedLines text = [] then none else some d },
        write [] [] ((endedLines text).flatMap places)) :=
  @nfLines_eq Hierarchy.init _ _ h.two (fun line hl => h.lines line (mem_fileLines_of_ended hl)) rfl

/-- **The file is small enough**: fewer than `2 ^ 31` lines, fields, and different types and names. -/
structure Few (text : Str) (d : Nat) : Prop where
  lines : (endedLines text).length < 2 ^ 31
  fields : endedLines text ≠ [] → d < 2 ^ 31
  types : (((endedLines text).flatMap places).map Place.type).toFinset.card < 2 ^ 31
  names : (((endedLines text).flatMap places).map Place.name).toFinset.card < 2 ^ 31

/-- What is read of a hostfile, and what it writes. -/
structure Reads (text : Str) (d : Nat) (h : Hierarchy) (outs : List Paje) : Prop where
  call : nfReadAndCreateHierarchy Hierarchy.init text = .ok (h, outs)
  outs : outs = write [] [] ((endedLines text).flatMap places)
  hostnames : h.hostnames = (endedLines text).map hostOf
  inRange : h.InRange ↔ Few text d

theorem IsHostfile.reads {text : Str} {d : Nat} (h : IsHostfile text d) :
    ∃ h' outs, Reads text d h' outs := by
  refine ⟨_, _, nfReadAndCreateHierarchy_eq h, rfl, rfl, ?_⟩
  have htypes := length_keysAfter Place.type ((endedLines text).flatMap places)
  have hnames := length_keysAfter Place.name ((endedLines text).flatMap places)
  have hlines : ((endedLines text).map hostOf).length = (endedLines text).length := List.length_map _
  constructor
  · intro hin
    refine ⟨hlines ▸ hin.hostnames, fun hne => ?_, htypes ▸ hin.types, hnames ▸ hin.containers⟩
    exact hin.depth d (if_neg hne)
  · intro hfew
    refine ⟨htypes ▸ hfew.types, hnames ▸ hfew.names, hlines ▸ hfew.lines, fun d' hd' => ?_⟩
    dsimp only at hd'
    split at hd'
    · cases hd'
    · next hne =>
      cases hd'
      exact hfew.fields hne

/-! ## Types and containers in order -/

/-- Each type is declared once, before its first use and after its parent; each container is
    created once, after its parent. -/
def Ordered : List Str → List Str → List Paje → Prop
  | _, _, [] => True
  | types, names, .defineContainerType type parent _ :: es =>
      type ∉ types ∧ (parent = sZero ∨ parent ∈ types) ∧ Ordered (types ++ [type]) names es
  | types, names, .createContainer _ name type parent _ :: es =>
      type ∈ types ∧ name ∉ names ∧ (parent = sZero ∨ parent ∈ names) ∧
        Ordered types (names ++ [name]) es
  | types, names, _ :: es => Ordered types names es

/-- Places whose parents come before them. -/
def Grounded : List Str → List Str → List Place → Prop
  | _, _, [] => True
  | types, names, p :: ps =>
      (p.parentType = sZero ∨ p.parentType ∈ types) ∧ (p.parent = sZero ∨ p.parent ∈ names) ∧
        Grounded (types ++ [p.type]) (names ++ [p.name]) ps

theorem Grounded.mono {types types' names names' : List Str} {ps : List Place}
    (h : Grounded types names ps) (ht : types ⊆ types') (hn : names ⊆ names') :
    Grounded types' names' ps := by
  induction ps generalizing types types' names names' with
  | nil => trivial
  | cons p ps ih =>
    obtain ⟨hparentType, hparent, hrest⟩ := h
    refine ⟨hparentType.imp_right (@ht _), hparent.imp_right (@hn _), ih hrest ?_ ?_⟩
    · exact List.append_subset.mpr ⟨List.Subset.trans ht (List.subset_append_left ..),
        List.subset_append_right ..⟩
    · exact List.append_subset.mpr ⟨List.Subset.trans hn (List.subset_append_left ..),
        List.subset_append_right ..⟩

theorem grounded_append {types names : List Str} {ps qs : List Place} :
    Grounded types names (ps ++ qs) ↔ Grounded types names ps ∧
      Grounded (types ++ ps.map Place.type) (names ++ ps.map Place.name) qs := by
  induction ps generalizing types names with
  | nil => simp [Grounded]
  | cons p ps ih => simp [Grounded, ih, and_assoc]

/-- A path is grounded, since the place above is performed just before. -/
theorem grounded_placesOf (types names : List Str) (path : List (Str × Str)) :
    Grounded types names (placesOf path) := by
  induction path generalizing types names with
  | nil => trivial
  | cons x above ih =>
    obtain ⟨name, type⟩ := x
    rw [placesOf, grounded_append]
    refine ⟨ih types names, ?_, ?_, trivial⟩
    · cases above with
      | nil => exact .inl rfl
      | cons y above => exact .inr (by simp [placesOf, placeIn])
    · cases above with
      | nil => exact .inl rfl
      | cons y above => exact .inr (by simp [placesOf, placeIn])

theorem ordered_write {types names : List Str} {ps : List Place} (h : Grounded types names ps) :
    Ordered types names (write types names ps) := by
  induction ps generalizing types names with
  | nil => trivial
  | cons p ps ih =>
    obtain ⟨hparentType, hparent, hrest⟩ := h
    -- what is in a table already is not added again
    obtain ⟨types', ht'⟩ : ∃ ts, ts = if p.type ∈ types then types else types ++ [p.type] := ⟨_, rfl⟩
    obtain ⟨names', hn'⟩ : ∃ ns, ns = if p.name ∈ names then names else names ++ [p.name] := ⟨_, rfl⟩
    have hmemt : p.type ∈ types' := by rw [ht']; split <;> simp_all
    have hsubt : types ++ [p.type] ⊆ types' := by
      rw [ht']
      split
      · next hp => exact List.append_subset.mpr ⟨List.Subset.refl _, by simpa using hp⟩
      · exact List.Subset.refl _
    have hsubn : names ++ [p.name] ⊆ names' := by
      rw [hn']
      split
      · next hp => exact List.append_subset.mpr ⟨List.Subset.refl _, by simpa using hp⟩
      · exact List.Subset.refl _
    have hnext := ih (hrest.mono hsubt hsubn)
    rw [write, ← ht', ← hn']
    have hcreate : Ordered types' names
        ((if p.name ∈ names then [] else [p.create]) ++ write types' names' ps) := by
      split
      · next hp => rw [if_pos hp] at hn'; exact hn' ▸ hnext
      · next hp => rw [if_neg hp] at hn'; exact ⟨hmemt, hp, hparent, hn' ▸ hnext⟩
    rw [List.append_assoc]
    split
    · next hp => rw [if_pos hp] at ht'; exact ht' ▸ hcreate
    · next hp => rw [if_neg hp] at ht'; exact ⟨hp, hparentType, ht' ▸ hcreate⟩

/-- **The first place of each type is declared, and the first of each name is created.** -/
theorem mem_write {types names : List Str} {ps : List Place} {e : Paje} :
    e ∈ write types names ps ↔
      (∃ p ∈ firsts Place.type types ps, e = p.define) ∨
        ∃ p ∈ firsts Place.name names ps, e = p.create := by
  induction ps generalizing types names with
  | nil => simp [write, firsts]
  | cons p ps ih =>
    by_cases ht : p.type ∈ types <;> by_cases hn : p.name ∈ names <;>
      simp [write, firsts, ht, hn, ih, or_assoc, or_left_comm]

theorem mem_write_create {types names : List Str} {ps : List Place} {name type parent : Str} :
    .createContainer 0 name type parent name ∈ write types names ps ↔
      ∃ p ∈ firsts Place.name names ps, name = p.name ∧ type = p.type ∧ parent = p.parent := by
  rw [mem_write]
  constructor
  · rintro (⟨p, -, he⟩ | ⟨p, hp, he⟩)
    · cases he
    · injection he with _ hname htype hparent _
      exact ⟨p, hp, hname, htype, hparent⟩
  · rintro ⟨p, hp, rfl, rfl, rfl⟩
    exact .inr ⟨p, hp, rfl⟩

theorem mem_write_define {types names : List Str} {ps : List Place} {type parent : Str} :
    .defineContainerType type parent type ∈ write types names ps ↔
      ∃ p ∈ firsts Place.type types ps, type = p.type ∧ parent = p.parentType := by
  rw [mem_write]
  constructor
  · rintro (⟨p, hp, he⟩ | ⟨p, -, he⟩)
    · injection he with htype hparent _
      exact ⟨p, hp, htype, hparent⟩
    · cases he
  · rintro ⟨p, hp, rfl, rfl⟩
    exact .inl ⟨p, hp, rfl⟩

/-! ## The hierarchy that is written -/

/-- From a container up through the parents in the `CreateContainer` events, with the types, to
    the root. -/
inductive Up (outs : List Paje) : Str → List (Str × Str) → Prop where
  | root : Up outs sZero []
  | above {name type parent : Str} {path : List (Str × Str)} :
      .createContainer 0 name type parent name ∈ outs → Up outs parent path →
        Up outs name ((name, type) :: path)

/-- The next name up. -/
def parentOf (above : List (Str × Str)) : Str := (above.head?.map Prod.fst).getD sZero

theorem Up.eq_parentOf {outs : List Paje} {parent : Str} {above : List (Str × Str)}
    (h : Up outs parent above) : parent = parentOf above := by
  cases h <;> rfl

/-- A path can be followed when each of its places was created. -/
theorem up_iff {outs : List Paje} {path : List (Str × Str)} :
    Up outs (parentOf path) path ↔ ∀ p ∈ placesOf path, p.create ∈ outs := by
  induction path with
  | nil => exact ⟨nofun, fun _ => .root⟩
  | cons x above ih =>
    obtain ⟨name, type⟩ := x
    rw [placesOf, List.forall_mem_append, ← ih, List.forall_mem_singleton]
    constructor
    · intro h
      cases h with
      | above hmem hup =>
        obtain rfl := hup.eq_parentOf
        exact ⟨hup, hmem⟩
    · rintro ⟨hup, hmem⟩
      exact .above hmem hup

/-- **The hierarchy of the file is reproduced.** -/
structure Faithful (text : Str) (outs : List Paje) : Prop where
  ordered : Ordered [] [] outs
  /-- Each host is a container of type `H` below the containers of its line. -/
  ancestors : ∀ line ∈ fileLines text, ∀ host cluster xs, HostLine line host cluster xs →
    Up outs host (pathOf host cluster xs)
  /-- Each type of the line is declared, below the type above. -/
  types : ∀ line ∈ fileLines text, ∀ host cluster xs, HostLine line host cluster xs →
    ∀ p ∈ placesOf (pathOf host cluster xs), p.define ∈ outs

/-- **A name always stands in the same place**, and all names of a line without a newline stand
    in lines before. -/
structure Consistent (text : Str) : Prop where
  same : ∀ p ∈ (fileLines text).flatMap places, ∀ q ∈ (fileLines text).flatMap places,
    p.name = q.name → p.type = q.type ∧ p.parent = q.parent
  ended : ∀ p ∈ (fileLines text).flatMap places, ∃ q ∈ (endedLines text).flatMap places,
    q.name = p.name

theorem levelType_inj {i j : Nat} (h : levelType i = levelType j) : i = j :=
  fmtNat_inj (List.cons.inj h).2

theorem levelType_ne_sHost (j : Nat) : levelType j ≠ sHost := fun h =>
  absurd (List.cons.inj h).1 (by decide)

/-- The types of levels, with the types above. -/
theorem type_of_levels {j : Nat} {xs : List Str} {p : Place} (h : p ∈ placesOf (levels j xs)) :
    ∃ i, p.type = levelType i ∧
      p.parentType = if i + 1 = j + xs.length then sZero else levelType (i + 1) := by
  induction xs generalizing j with
  | nil => exact absurd h (by simp [levels, placesOf])
  | cons x xs ih =>
    rw [levels, placesOf] at h
    rcases List.mem_append.mp h with h | h
    · obtain ⟨i, htype, hparent⟩ := ih h
      refine ⟨i, htype, ?_⟩
      rw [hparent, List.length_cons, Nat.add_right_comm, Nat.add_assoc]
    · rw [List.mem_singleton.mp h]
      refine ⟨j, rfl, ?_⟩
      cases xs with
      | nil => exact (if_pos rfl).symm
      | cons y ys => exact (if_neg (by simp)).symm

/-- The type above a type of a line with `d` fields. -/
theorem type_of_path {host cluster : Str} {xs : List Str} {p : Place}
    (h : p ∈ placesOf (pathOf host cluster xs)) :
    p.type = sHost ∧ p.parentType = levelType 0 ∨ ∃ i, p.type = levelType i ∧
      p.parentType = if i + 1 = xs.length + 1 then sZero else levelType (i + 1) := by
  rw [pathOf, placesOf, placesOf] at h
  rcases List.mem_append.mp h with h | h
  · rcases List.mem_append.mp h with h | h
    · obtain ⟨i, htype, hparent⟩ := type_of_levels h
      exact .inr ⟨i, htype, by rw [hparent, Nat.add_comm 1]⟩
    · rw [List.mem_singleton.mp h]
      refine .inr ⟨0, rfl, ?_⟩
      cases xs with
      | nil => exact (if_pos rfl).symm
      | cons y ys => exact (if_neg (by simp)).symm
  · rw [List.mem_singleton.mp h]
    exact .inl ⟨rfl, rfl⟩

theorem IsHostfile.exists_path {text : Str} {d : Nat} (h : IsHostfile text d) {p : Place}
    (hp : p ∈ (fileLines text).flatMap places) :
    ∃ host cluster xs, p ∈ placesOf (pathOf host cluster xs) ∧ xs.length + 1 = d := by
  obtain ⟨line, hline, hp⟩ := List.mem_flatMap.mp hp
  obtain ⟨host, cluster, xs, hfields, hlen⟩ := h.lines line hline
  exact ⟨host, cluster, xs, hfields.places_eq ▸ hp, hlen⟩

/-- **The type decides the type above**, in all lines alike. -/
theorem IsHostfile.parentType_eq {text : Str} {d : Nat} (h : IsHostfile text d) {p q : Place}
    (hp : p ∈ (fileLines text).flatMap places) (hq : q ∈ (fileLines text).flatMap places)
    (htype : p.type = q.type) : p.parentType = q.parentType := by
  obtain ⟨_, _, xs, hp, hxs⟩ := h.exists_path hp
  obtain ⟨_, _, ys, hq, hys⟩ := h.exists_path hq
  rcases type_of_path hp with ⟨hpt, hpp⟩ | ⟨i, hpt, hpp⟩ <;>
    rcases type_of_path hq with ⟨hqt, hqp⟩ | ⟨j, hqt, hqp⟩
  · rw [hpp, hqp]
  · exact absurd (hqt.symm.trans (htype.symm.trans hpt)) (levelType_ne_sHost j)
  · exact absurd (hpt.symm.trans (htype.trans hqt)) (levelType_ne_sHost i)
  · obtain rfl := levelType_inj (hpt.symm.trans (htype.trans hqt))
    rw [hpp, hqp, hxs, hys]

/-- The path of a line is followed when its places were created. -/
theorem HostLine.up_iff {line host cluster : Str} {xs : List Str} {outs : List Paje}
    (h : HostLine line host cluster xs) :
    Up outs host (pathOf host cluster xs) ↔ ∀ p ∈ places line, p.create ∈ outs := by
  rw [h.places_eq]
  exact @Otf2.up_iff outs (pathOf host cluster xs)

theorem grounded_places (types names : List Str) {lines : List Str}
    (h : ∀ line ∈ lines, ∃ path, places line = placesOf path) :
    Grounded types names (lines.flatMap places) := by
  induction lines generalizing types names with
  | nil => trivial
  | cons line lines ih =>
    obtain ⟨path, hpath⟩ := h line List.mem_cons_self
    rw [List.flatMap_cons, grounded_append]
    exact ⟨hpath ▸ grounded_placesOf types names path,
      ih _ _ fun l hl => h l (List.mem_cons_of_mem _ hl)⟩

variable {text : Str} {d : Nat}

theorem IsHostfile.ordered (h : IsHostfile text d) :
    Ordered [] [] (write [] [] ((endedLines text).flatMap places)) := by
  refine ordered_write (grounded_places [] [] fun line hline => ?_)
  obtain ⟨host, cluster, xs, hfields, -⟩ := h.lines line (mem_fileLines_of_ended hline)
  exact ⟨_, hfields.places_eq⟩

theorem IsHostfile.ancestors_iff (h : IsHostfile text d) (outs : List Paje) :
    (∀ line ∈ fileLines text, ∀ host cluster xs, HostLine line host cluster xs →
      Up outs host (pathOf host cluster xs)) ↔
      ∀ p ∈ (fileLines text).flatMap places, p.create ∈ outs := by
  constructor
  · intro hup p hp
    obtain ⟨line, hline, hp⟩ := List.mem_flatMap.mp hp
    obtain ⟨host, cluster, xs, hfields, -⟩ := h.lines line hline
    exact hfields.up_iff.mp (hup line hline host cluster xs hfields) p hp
  · intro hall line hline host cluster xs hfields
    exact hfields.up_iff.mpr fun p hp => hall p (List.mem_flatMap.mpr ⟨line, hline, hp⟩)

/-- **Faithful files are consistent.** -/
theorem IsHostfile.consistent (h : IsHostfile text d)
    (hf : Faithful text (write [] [] ((endedLines text).flatMap places))) : Consistent text := by
  have hcreated := (h.ancestors_iff _).mp hf.ancestors
  have hfirst : ∀ p ∈ (fileLines text).flatMap places,
      ∃ q ∈ firsts Place.name [] ((endedLines text).flatMap places),
        p.name = q.name ∧ p.type = q.type ∧ p.parent = q.parent :=
    fun p hp => mem_write_create.mp (hcreated p hp)
  refine ⟨?_, ?_⟩
  · intro p hp q hq hname
    obtain ⟨p', hp', hpn, hpt, hpp⟩ := hfirst p hp
    obtain ⟨q', hq', hqn, hqt, hqp⟩ := hfirst q hq
    obtain rfl := eq_of_mem_firsts List.nodup_nil hp' hq' (hpn.symm.trans (hname.trans hqn))
    exact ⟨hpt.trans hqt.symm, hpp.trans hqp.symm⟩
  · intro p hp
    obtain ⟨q, hq, hname, -⟩ := hfirst p hp
    exact ⟨q, (mem_of_mem_firsts hq).1, hname.symm⟩

/-- **Consistent files are reproduced.** -/
theorem IsHostfile.faithful (h : IsHostfile text d) (hc : Consistent text) :
    Faithful text (write [] [] ((endedLines text).flatMap places)) := by
  have hsub : ∀ {q}, q ∈ (endedLines text).flatMap places → q ∈ (fileLines text).flatMap places := by
    intro q hq
    obtain ⟨line, hline, hq⟩ := List.mem_flatMap.mp hq
    exact List.mem_flatMap.mpr ⟨line, mem_fileLines_of_ended hline, hq⟩
  refine ⟨h.ordered, (h.ancestors_iff _).mpr fun p hp => ?_, fun line hline host cluster xs hfields
    p hp => ?_⟩
  · obtain ⟨q, hq, hname⟩ := hc.ended p hp
    obtain ⟨q', hq', hname'⟩ := @exists_mem_firsts _ _ _ Place.name _ _ hq
    obtain ⟨htype, hparent⟩ :=
      hc.same p hp q' (hsub (mem_of_mem_firsts hq').1) (hname.symm.trans hname'.symm)
    exact mem_write_create.mpr ⟨q', hq', hname.symm.trans hname'.symm, htype, hparent⟩
  · have hp : p ∈ (fileLines text).flatMap places :=
      List.mem_flatMap.mpr ⟨line, hline, hfields.places_eq ▸ hp⟩
    obtain ⟨q, hq, hname⟩ := hc.ended p hp
    have htype := (hc.same p hp q (hsub hq) hname.symm).1
    obtain ⟨q', hq', htype'⟩ := @exists_mem_firsts _ _ _ Place.type _ _ hq
    have heq : p.type = q'.type := htype.trans htype'.symm
    exact mem_write_define.mpr ⟨q', hq', heq,
      h.parentType_eq hp (hsub (mem_of_mem_firsts hq').1) heq⟩

/-- **Which hostfiles are reproduced**: those where a name always stands in the same place, and
    nothing new stands after the last newline, as long as no `int` overflows. -/
theorem hostfile_faithful (text : Str) (d : Nat) (h : IsHostfile text d) :
    ∃ h' outs, nfReadAndCreateHierarchy Hierarchy.init text = .ok (h', outs) ∧
      (Faithful text outs ∧ h'.InRange ↔ Consistent text ∧ Few text d) := by
  obtain ⟨h', outs, hreads⟩ := h.reads
  refine ⟨h', outs, hreads.call, and_congr ?_ hreads.inRange⟩
  rw [hreads.outs]
  exact ⟨h.consistent, h.faithful⟩

/-! ## Two files -/

/-- A line of a hostfile with `d` fields. -/
def lineOk (d : Nat) (line : Str) : Bool :=
  match strtok '.' (cstr line) with
  | host :: xs => (strtok '-' host).length == 2 && xs.length + 1 == d
  | [] => false

theorem exists_of_lineOk {line : Str} (h : lineOk d line = true) :
    ∃ host cluster xs, HostLine line host cluster xs ∧ xs.length + 1 = d := by
  rw [lineOk] at h
  split at h
  · next host xs hfields =>
    rw [Bool.and_eq_true, beq_iff_eq, beq_iff_eq] at h
    obtain ⟨cluster, name, hpair⟩ := List.length_eq_two.mp h.1
    exact ⟨host, cluster, xs, ⟨hfields, name, hpair⟩, h.2⟩
  · exact absurd h (by simp)

instance (text : Str) : Decidable (Consistent text) :=
  decidable_of_iff ((∀ p ∈ (fileLines text).flatMap places, ∀ q ∈ (fileLines text).flatMap places,
      p.name = q.name → p.type = q.type ∧ p.parent = q.parent) ∧
      ∀ p ∈ (fileLines text).flatMap places, ∃ q ∈ (endedLines text).flatMap places,
        q.name = p.name)
    ⟨fun h => ⟨h.1, h.2⟩, fun h => ⟨h.same, h.ended⟩⟩

/-- Two hosts of a cluster and one of another, at one site. -/
def oneSite : Str := "a-1.s.g\na-2.s.g\nb-1.s.g\n".toList

theorem isHostfile_oneSite : IsHostfile oneSite 3 :=
  ⟨by decide, fun line hline => exists_of_lineOk
    (List.all_eq_true.mp (by decide : (fileLines oneSite).all (lineOk 3) = true) line hline)⟩

theorem few_oneSite : Few oneSite 3 := ⟨by decide, fun _ => by decide, by decide, by decide⟩

theorem hostfile_faithful_oneSite :
    ∃ h' outs, nfReadAndCreateHierarchy Hierarchy.init oneSite = .ok (h', outs) ∧
      Faithful oneSite outs ∧ h'.InRange := by
  obtain ⟨h', outs, hread, hiff⟩ := hostfile_faithful oneSite 3 isHostfile_oneSite
  exact ⟨h', outs, hread, hiff.mpr ⟨by decide, few_oneSite⟩⟩

/-- A rack of the same name at each of two sites. -/
def twoRacks : Str := "a-1.rack.east\nb-1.rack.west\n".toList

/-- **The second rack is not created**, and its host comes out below the first. -/
theorem hostfile_not_faithful :
    IsHostfile twoRacks 3 ∧
      ∃ h' outs, nfReadAndCreateHierarchy Hierarchy.init twoRacks = .ok (h', outs) ∧
        ¬ Faithful twoRacks outs := by
  have hfile : IsHostfile twoRacks 3 := ⟨by decide, fun line hline => exists_of_lineOk
    (List.all_eq_true.mp (by decide : (fileLines twoRacks).all (lineOk 3) = true) line hline)⟩
  refine ⟨hfile, _, _, nfReadAndCreateHierarchy_eq hfile, ?_⟩
  intro hf
  exact absurd (hfile.consistent hf) (by decide)

end Otf2
end Akypuera

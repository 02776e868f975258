import Akypuera.Otf2.Hierarchy

/-!
# The hosts of a hostfile

Each line that is read registers its host, so of a hostfile **the hosts of all lines are registered
exactly when nothing stands after the last newline** (`hostnames_eq_iff`).

The container of a host comes last of the containers of its line, and containers are looked up by
their names alone. A cluster cannot be taken for a host, since it has no dash. A field above a host
can: **a host gets a container of its own exactly when no field has its name that stands above it,
or above a host before** (`hostsCreated_iff`).
-/

set_option autoImplicit false

namespace Akypuera
namespace Otf2

open CText Firsts

/-- The fields above the host of a line. -/
def fieldsAbove (line : Str) : List Str := (strtok '.' (cstr line)).tail

/-- The containers in the order in which they are created, with their types. -/
def created (outs : List Paje) : List (Str × Str) :=
  outs.filterMap fun
    | .createContainer _ _ type _ name => some (name, type)
    | _ => none

/-- **No line is lost**: the hosts of all lines are registered in their order, and each has a
    container, which is created once. -/
structure NoLineLost (text : Str) (h : Hierarchy) (outs : List Paje) : Prop where
  hostnames : h.hostnames = (fileLines text).map hostOf
  hosts : ∀ line ∈ fileLines text, (hostOf line, sHost) ∈ created outs
  once : ((created outs).map Prod.fst).Nodup

/-- **Where a host comes first** no field above it or above a host before has its name. -/
def HostsFirst (lines : List Str) : Prop :=
  ∀ before line after, lines = before ++ line :: after → hostOf line ∉ before.map hostOf →
    ∀ l ∈ before ++ [line], hostOf line ∉ fieldsAbove l

instance (lines : List Str) : Decidable (HostsFirst lines) :=
  @decidable_of_iff _ _
    (@forall_split_iff _ (fun before line => hostOf line ∉ before.map hostOf →
      ∀ l ∈ before ++ [line], hostOf line ∉ fieldsAbove l) lines).symm
    inferInstance

/-! ## The places of a line -/

/-- The places of a line above its host. -/
def upper (line : Str) : List Place := (places line).dropLast

/-- Tokens do not contain the separator. -/
theorem not_mem_of_mem_splitOn {sep : Char} {s w : Str} (h : w ∈ s.splitOn sep) : sep ∉ w := by
  induction s generalizing w with
  | nil =>
    rw [List.splitOn_nil] at h
    rw [List.mem_singleton.mp h]
    exact List.not_mem_nil
  | cons c s ih =>
    rw [List.splitOn_cons_eq_if_modifyHead] at h
    obtain ⟨v, vs, hsplit⟩ := List.exists_cons_of_ne_nil (List.splitOn_ne_nil sep s)
    rw [hsplit] at h ih
    split at h
    · rcases List.mem_cons.mp h with rfl | h
      · exact List.not_mem_nil
      · exact ih h
    · next hc =>
      rcases List.mem_cons.mp h with rfl | h
      · intro hmem
        rcases List.mem_cons.mp hmem with rfl | hmem
        · exact hc (beq_self_eq_true _)
        · exact ih List.mem_cons_self hmem
      · exact ih (List.mem_cons_of_mem _ h)

variable {line host cluster : Str} {xs : List Str}

theorem HostLine.fieldsAbove_eq (h : HostLine line host cluster xs) : fieldsAbove line = xs := by
  rw [fieldsAbove, h.fields, List.tail_cons]

/-- The dash between cluster and host. -/
theorem HostLine.dash (h : HostLine line host cluster xs) : '-' ∈ hostOf line := by
  obtain ⟨name, hpair⟩ := h.pair
  rw [h.hostOf_eq]
  by_contra hdash
  have hle : (strtok '-' host).length ≤ 1 := by
    rw [strtok, List.splitOn_eq_singleton hdash]
    exact List.length_filter_le _ _
  rw [hpair] at hle
  exact absurd hle (by simp)

theorem HostLine.not_mem_cluster (h : HostLine line host cluster xs) : '-' ∉ cluster := by
  obtain ⟨name, hpair⟩ := h.pair
  have hmem : cluster ∈ strtok '-' host := by
    rw [hpair]
    exact List.mem_cons_self
  exact not_mem_of_mem_splitOn (List.mem_filter.mp hmem).1

theorem names_levels (j : Nat) (xs : List Str) :
    (placesOf (levels j xs)).map Place.name = xs.reverse := by
  induction xs generalizing j with
  | nil => rfl
  | cons x xs ih =>
    rw [levels, placesOf, List.map_append, ih, List.reverse_cons]
    rfl

/-- The place of the host comes last. -/
theorem HostLine.places_split (h : HostLine line host cluster xs) :
    upper line = placesOf ((cluster, levelType 0) :: levels 1 xs) ∧
      ∃ p, places line = upper line ++ [p] ∧ p.name = hostOf line ∧ p.type = sHost := by
  have hplaces : places line = placesOf ((cluster, levelType 0) :: levels 1 xs) ++
      [placeIn host sHost ((cluster, levelType 0) :: levels 1 xs)] := h.places_eq
  have hupper : upper line = placesOf ((cluster, levelType 0) :: levels 1 xs) := by
    rw [upper, hplaces, List.dropLast_concat]
  exact ⟨hupper, _, hupper ▸ hplaces, h.hostOf_eq.symm, rfl⟩

/-- The places above are no hosts, and their names are the fields above and the cluster. -/
theorem HostLine.of_mem_upper (h : HostLine line host cluster xs) {q : Place}
    (hq : q ∈ upper line) : q.type ≠ sHost ∧ (q.name ∈ fieldsAbove line ∨ '-' ∉ q.name) := by
  rw [h.places_split.1, placesOf] at hq
  rcases List.mem_append.mp hq with hq | hq
  · obtain ⟨i, htype, -⟩ := type_of_levels hq
    have hname := List.mem_map_of_mem (f := Place.name) hq
    rw [names_levels, List.mem_reverse] at hname
    exact ⟨htype ▸ levelType_ne_sHost i, .inl (h.fieldsAbove_eq ▸ hname)⟩
  · rw [List.mem_singleton.mp hq]
    exact ⟨levelType_ne_sHost 0, .inr h.not_mem_cluster⟩

theorem HostLine.exists_upper (h : HostLine line host cluster xs) {x : Str}
    (hx : x ∈ fieldsAbove line) : ∃ q ∈ upper line, q.name = x := by
  rw [h.fieldsAbove_eq, ← List.mem_reverse, ← names_levels 1] at hx
  obtain ⟨q, hq, hname⟩ := List.mem_map.mp hx
  rw [h.places_split.1, placesOf]
  exact ⟨q, List.mem_append_left _ hq, hname⟩

/-! ## The containers of the hosts -/

theorem created_write (types names : List Str) (ps : List Place) :
    created (write types names ps) =
      (firsts Place.name names ps).map fun p => (p.name, p.type) := by
  induction ps generalizing types names with
  | nil => rfl
  | cons p ps ih =>
    simp only [created] at ih
    by_cases ht : p.type ∈ types <;> by_cases hn : p.name ∈ names <;>
      simp [write, created, firsts, Place.define, Place.create, ht, hn, ih]

/-- The places before the one of a host. -/
def placesBefore (before : List Str) (line : Str) : List Place :=
  before.flatMap places ++ upper line

/-- Lines of hosts. -/
def HostLines (lines : List Str) : Prop :=
  ∀ line ∈ lines, ∃ host cluster xs, HostLine line host cluster xs

variable {before lines : List Str}

/-- The places of a line are those above the host, and the host. -/
theorem mem_places_iff (h : HostLine line host cluster xs) {q : Place} (hq : q ∈ places line) :
    q ∈ upper line ∨ q.name = hostOf line ∧ q.type = sHost := by
  obtain ⟨-, p, hplaces, hname, htype⟩ := h.places_split
  rw [hplaces] at hq
  rcases List.mem_append.mp hq with hq | hq
  · exact .inl hq
  · rw [List.mem_singleton.mp hq]
    exact .inr ⟨hname, htype⟩

/-- Where a host comes first, what has its name before is a field above a host. -/
theorem above_of_mem_placesBefore (hlines : HostLines (before ++ [line]))
    (hnew : hostOf line ∉ before.map hostOf) {q : Place} (hq : q ∈ placesBefore before line)
    (hname : q.name = hostOf line) :
    q.type ≠ sHost ∧ ∃ l ∈ before ++ [line], hostOf line ∈ fieldsAbove l := by
  obtain ⟨host, cluster, xs, hline⟩ := hlines line (by simp)
  have hupper : ∃ l ∈ before ++ [line], q ∈ upper l := by
    rcases List.mem_append.mp hq with hq | hq
    · obtain ⟨l, hl, hq⟩ := List.mem_flatMap.mp hq
      obtain ⟨host', cluster', xs', hl'⟩ := hlines l (List.mem_append_left _ hl)
      rcases mem_places_iff hl' hq with hq | ⟨hhost, -⟩
      · exact ⟨l, List.mem_append_left _ hl, hq⟩
      · exact absurd (List.mem_map.mpr ⟨l, hl, hhost.symm.trans hname⟩) hnew
    · exact ⟨line, by simp, hq⟩
  obtain ⟨l, hl, hq⟩ := hupper
  obtain ⟨host', cluster', xs', hl'⟩ := hlines l hl
  obtain ⟨htype, hfield | hdash⟩ := hl'.of_mem_upper hq
  · exact ⟨htype, l, hl, hname ▸ hfield⟩
  · exact absurd hline.dash (hname ▸ hdash)

theorem exists_mem_placesBefore (hlines : HostLines (before ++ [line])) {l : Str}
    (hl : l ∈ before ++ [line]) {x : Str} (hx : x ∈ fieldsAbove l) :
    ∃ q ∈ placesBefore before line, q.name = x := by
  obtain ⟨host, cluster, xs, hl'⟩ := hlines l hl
  obtain ⟨q, hq, hname⟩ := hl'.exists_upper hx
  refine ⟨q, ?_, hname⟩
  rcases List.mem_append.mp hl with hl | hl
  · obtain ⟨-, p, hplaces, -⟩ := hl'.places_split
    exact List.mem_append_left _ (List.mem_flatMap.mpr ⟨l, hl, hplaces ▸ List.mem_append_left _ hq⟩)
  · rw [List.mem_singleton.mp hl] at hq
    exact List.mem_append_right _ hq

/-- The places of lines, around the host of one of them. -/
theorem flatMap_places_split (before after : List Str) (h : HostLine line host cluster xs) :
    ∃ p, (before ++ line :: after).flatMap places =
        placesBefore before line ++ p :: after.flatMap places ∧
      p.name = hostOf line ∧ p.type = sHost := by
  obtain ⟨-, p, hplaces, hname, htype⟩ := h.places_split
  refine ⟨p, ?_, hname, htype⟩
  rw [List.flatMap_append, List.flatMap_cons, hplaces, placesBefore]
  simp only [List.append_assoc, List.cons_append, List.nil_append]

theorem mem_created_iff {ps : List Place} {name type : Str} :
    (name, type) ∈ created (write [] [] ps) ↔
      ∃ p ∈ firsts Place.name [] ps, p.name = name ∧ p.type = type := by
  rw [created_write, List.mem_map]
  simp only [Prod.mk.injEq]

/-- **Which hosts have containers of their own.** -/
theorem hostsCreated_iff (hlines : HostLines lines) :
    (∀ line ∈ lines, (hostOf line, sHost) ∈ created (write [] [] (lines.flatMap places))) ↔
      HostsFirst lines := by
  constructor
  · intro hall before line after heq hnew l hl habove
    have hsub : HostLines (before ++ [line]) := by
      intro l hl
      apply hlines l
      rw [heq, List.append_cons]
      exact List.mem_append_left _ hl
    obtain ⟨host, cluster, xs, hline⟩ := hsub line (by simp)
    obtain ⟨p, hp, hpname, hptype⟩ := mem_created_iff.mp (hall line (by simp [heq]))
    obtain ⟨q, hq, hqname⟩ := exists_mem_placesBefore hsub hl habove
    -- of the places with the name, one before the host's is created
    obtain ⟨q', hq', hqname'⟩ := @exists_mem_firsts _ _ _ Place.name _ _ hq
    have htype := (above_of_mem_placesBefore hsub hnew (mem_of_mem_firsts hq').1
      (hqname'.trans hqname)).1
    obtain ⟨hplace, hsplit, -⟩ := flatMap_places_split before after hline
    rw [heq, hsplit] at hp
    have hkept : q' ∈ firsts Place.name []
        (placesBefore before line ++ hplace :: after.flatMap places) := by
      rw [firsts_append]
      exact List.mem_append_left _ hq'
    have hsame : p = q' :=
      eq_of_mem_firsts List.nodup_nil hp hkept (hpname.trans (hqname'.trans hqname).symm)
    exact htype (hsame ▸ hptype)
  · intro hfirst line hline
    obtain ⟨before, l, after, heq, hkey, hnew⟩ := exists_first (List.mem_map_of_mem (f := hostOf) hline)
    have hsub : HostLines (before ++ [l]) := by
      intro l' hl'
      apply hlines l'
      rw [heq, List.append_cons]
      exact List.mem_append_left _ hl'
    obtain ⟨host, cluster, xs, hl⟩ := hsub l (by simp)
    obtain ⟨p, hsplit, hname, htype⟩ := flatMap_places_split before after hl
    refine mem_created_iff.mpr ⟨p, ?_, hname.trans hkey, htype⟩
    rw [heq, hsplit]
    apply mem_firsts_of_new
    intro hmem
    obtain ⟨q, hq, hqname⟩ := List.mem_map.mp hmem
    obtain ⟨-, l', hl', habove⟩ :=
      above_of_mem_placesBefore hsub (hkey ▸ hnew) hq (hqname.trans hname)
    exact hfirst before l after heq (hkey ▸ hnew) l' hl' habove

/-- No container is created twice. -/
theorem nodup_created (ps : List Place) : ((created (write [] [] ps)).map Prod.fst).Nodup := by
  have hnodup := @nodup_keysAfter _ _ _ Place.name [] ps List.nodup_nil
  rw [keysAfter, List.nil_append] at hnodup
  rw [created_write, List.map_map]
  exact hnodup

/-! ## All lines -/

variable {text : Str} {d : Nat}

theorem IsHostfile.hostLines (h : IsHostfile text d) : HostLines (fileLines text) := by
  intro line hline
  obtain ⟨host, cluster, xs, hfields, -⟩ := h.lines line hline
  exact ⟨host, cluster, xs, hfields⟩

/-- **Which files have all their hosts registered.** -/
theorem hostnames_eq_iff (text : Str) :
    (endedLines text).map hostOf = (fileLines text).map hostOf ↔ Ended text := by
  constructor
  · intro heq
    by_contra hended
    obtain ⟨line, hlines⟩ := fileLines_of_not_ended hended
    have hlen := congrArg List.length heq
    rw [hlines, List.length_map, List.length_map, List.length_append] at hlen
    exact absurd hlen (by simp)
  · intro hended
    rw [fileLines_of_ended hended]

/-- **Of which hostfiles no line is lost**: those with nothing after the last newline, where no
    field takes the name of a host below it, or of a later one, before the host does, as long as no
    `int` overflows. -/
theorem noLineLost_iff (text : Str) (d : Nat) (h : IsHostfile text d) :
    ∃ h' outs, nfReadAndCreateHierarchy Hierarchy.init text = .ok (h', outs) ∧
      (NoLineLost text h' outs ∧ h'.InRange ↔
        (Ended text ∧ HostsFirst (fileLines text)) ∧ Few text d) := by
  obtain ⟨h', outs, hreads⟩ := h.reads
  refine ⟨h', outs, hreads.call, and_congr ?_ hreads.inRange⟩
  rw [hreads.outs]
  constructor
  · intro hlost
    have hended : Ended text :=
      (hostnames_eq_iff text).mp (hreads.hostnames.symm.trans hlost.hostnames)
    refine ⟨hended, (hostsCreated_iff h.hostLines).mp ?_⟩
    rw [fileLines_of_ended hended]
    exact fileLines_of_ended hended ▸ hlost.hosts
  · rintro ⟨hended, hfirst⟩
    have hcreated := (hostsCreated_iff h.hostLines).mpr hfirst
    constructor
    · exact hreads.hostnames.trans ((hostnames_eq_iff text).mpr hended)
    · rw [fileLines_of_ended hended] at hcreated ⊢
      exact hcreated
    · exact nodup_created _

theorem noLineLost_oneSite :
    ∃ h' outs, nfReadAndCreateHierarchy Hierarchy.init oneSite = .ok (h', outs) ∧
      NoLineLost oneSite h' outs ∧ h'.InRange := by
  obtain ⟨h', outs, hread, hiff⟩ := noLineLost_iff oneSite 3 isHostfile_oneSite
  exact ⟨h', outs, hread, hiff.mpr ⟨by decide, few_oneSite⟩⟩

/-- Two hosts, and no newline after the second. -/
def twoHosts : Str := "a-1.s\nb-1.s".toList

/-- **The second host is lost.** -/
theorem not_noLineLost :
    IsHostfile twoHosts 2 ∧
      ∃ h' outs, nfReadAndCreateHierarchy Hierarchy.init twoHosts = .ok (h', outs) ∧
        ¬ NoLineLost twoHosts h' outs := by
  have hfile : IsHostfile twoHosts 2 := ⟨by decide, fun line hline => exists_of_lineOk
    (List.all_eq_true.mp (by decide : (fileLines twoHosts).all (lineOk 2) = true) line hline)⟩
  obtain ⟨h', outs, hreads⟩ := hfile.reads
  refine ⟨hfile, h', outs, hreads.call, ?_⟩
  intro hlost
  exact absurd (hreads.hostnames.symm.trans hlost.hostnames) (by decide)

end Otf2
end Akypuera

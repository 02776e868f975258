import Mathlib
import Akypuera.Lib.Calls

/-!
# Reading a trace of containers, states and links

A trace declares types, and then creates containers, puts states on them, takes them off again,
draws links between them and destroys them. `World.run` reads such a trace line by line and refuses
it at the first line that makes no sense: a type, a parent or a container that is not there, a state
that is taken off where there is none, a container that is destroyed with a state on it or used
after its parent is gone. What it keeps of a container that was destroyed is when it lived, under
which name, type and parent, and **the calls that its states show** (`Calls`).

The main result is that a trace may be read **container by container** (`World.run_of_lives`): when
what the lines rest on stands throughout, the whole trace is read exactly as each container's own
lines are, whatever the order in which the lines of different containers come.

A type of container has one type of state at most.
-/

set_option autoImplicit false

namespace Scene

variable {ν τ : Type}

/-- The lines of a trace, over any names and times. -/
inductive Line (ν τ : Type) where
  | containerType (aliasName parent : ν)
  | stateType (aliasName parent : ν)
  | linkType (aliasName parent source dest : ν)
  | value (aliasName type name : ν)
  | create (time : τ) (aliasName type parent name : ν)
  | destroy (time : τ) (type name : ν)
  | push (time : τ) (container type value : ν)
  | pop (time : τ) (container type : ν)
  | startLink (time : τ) (container type source value key : ν)
  | endLink (time : τ) (container type dest value key : ν)
  deriving DecidableEq

/-- The container that a line is about: for a link, the end it is drawn at. -/
def Line.container : Line ν τ → Option ν
  | create _ aliasName _ _ _ => some aliasName
  | destroy _ _ name => some name
  | push _ container _ _ => some container
  | pop _ container _ => some container
  | startLink _ _ _ source _ _ => some source
  | endLink _ _ _ dest _ _ => some dest
  | _ => none

/-- The time of a line, if it has one. -/
def Line.time : Line ν τ → Option τ
  | create t _ _ _ _ | destroy t _ _ | push t _ _ _ | pop t _ _ | startLink t _ _ _ _ _
  | endLink t _ _ _ _ _ => some t
  | _ => none

/-- The declared types: each with the type it belongs to, links with the types of their ends too,
    and values with their type, their alias and their name. -/
structure Types (ν : Type) where
  containers : List (ν × ν)
  states : List (ν × ν)
  links : List (ν × ν × ν × ν)
  values : List ((ν × ν) × ν)
  deriving DecidableEq

/-- What is known of a container while it lives. -/
structure Box (ν τ : Type) where
  type : ν
  parent : ν
  name : ν
  born : τ
  states : Calls.Reading τ ν
  deriving DecidableEq

/-- A container when it was just created. -/
def Box.fresh (type parent name : ν) (born : τ) : Box ν τ :=
  ⟨type, parent, name, born, Calls.Reading.start⟩

/-- A container over time. -/
inductive Life (ν τ : Type) where
  | absent
  | alive (box : Box ν τ)
  | gone (box : Box ν τ) (died : τ)
  deriving DecidableEq

/-- The calls that are over. -/
def Life.calls : Life ν τ → Calls τ ν
  | absent => .done
  | alive box | gone box _ => box.states.calls

/-- What a reader knows. `top` is the container that is always there, and also its type. -/
structure World (ν τ : Type) where
  top : ν
  types : Types ν
  life : ν → Life ν τ

/-- Before the first line. -/
def World.start (top : ν) : World ν τ := ⟨top, ⟨[], [], [], []⟩, fun _ => .absent⟩

section
variable [DecidableEq ν]

/-! ## One line -/

/-- `type` is declared for containers. -/
def Types.IsContainer (types : Types ν) (top type : ν) : Prop :=
  type = top ∨ type ∈ types.containers.map Prod.fst

instance (types : Types ν) (top type : ν) : Decidable (types.IsContainer top type) :=
  inferInstanceAs (Decidable (_ ∨ _))

/-- The name of a value: its own, where none is declared. -/
def Types.nameOf (types : Types ν) (type value : ν) : ν :=
  ((types.values.find? fun v => v.1 = (type, value)).map Prod.snd).getD value

/-- A declaration. -/
def Types.declare (types : Types ν) (top : ν) : Line ν τ → Option (Types ν)
  | .containerType aliasName parent =>
      if types.IsContainer top parent ∧ ¬ types.IsContainer top aliasName then
        some { types with containers := types.containers ++ [(aliasName, parent)] }
      else none
  | .stateType aliasName parent =>
      if types.IsContainer top parent ∧ aliasName ∉ types.states.map Prod.fst ∧
          parent ∉ types.states.map Prod.snd then
        some { types with states := types.states ++ [(aliasName, parent)] }
      else none
  | .linkType aliasName parent source dest =>
      if types.IsContainer top parent ∧ types.IsContainer top source ∧
          types.IsContainer top dest ∧ aliasName ∉ types.links.map Prod.fst then
        some { types with links := types.links ++ [(aliasName, parent, source, dest)] }
      else none
  | .value aliasName type name =>
      if type ∈ types.states.map Prod.fst ∧ (type, aliasName) ∉ types.values.map Prod.fst then
        some { types with values := types.values ++ [((type, aliasName), name)] }
      else none
  | _ => none

/-- What a line does to its own container. -/
def Life.step (types : Types ν) (life : Life ν τ) (line : Line ν τ) : Option (Life ν τ) :=
  match life, line with
  | absent, .create time _ type parent name =>
      some (alive (Box.fresh type parent name time))
  | alive box, .destroy time type _ =>
      if type = box.type ∧ box.states.outer.isEmpty then some (gone box time) else none
  | alive box, .push time _ type value =>
      if (type, box.type) ∈ types.states then
        (box.states.step (.enter time (types.nameOf type value))).map
          fun states => alive { box with states }
      else none
  | alive box, .pop time _ type =>
      if (type, box.type) ∈ types.states then
        (box.states.step (.leave time)).map fun states => alive { box with states }
      else none
  | alive box, .startLink _ _ type _ _ _ =>
      if ∃ l ∈ types.links, l.1 = type ∧ l.2.2.1 = box.type then some (alive box) else none
  | alive box, .endLink _ _ type _ _ _ =>
      if ∃ l ∈ types.links, l.1 = type ∧ l.2.2.2 = box.type then some (alive box) else none
  | _, _ => none

/-- The type of a container that is there. -/
def World.typeOf (w : World ν τ) (c : ν) : Option ν :=
  if c = w.top then some w.top
  else match w.life c with
    | .alive box => some box.type
    | _ => none

/-- The container that `c` is in is there. -/
def World.Stands (w : World ν τ) (c : ν) : Prop :=
  match w.life c with
  | .alive box => (w.typeOf box.parent).isSome = true
  | _ => True

instance (w : World ν τ) (c : ν) : Decidable (w.Stands c) :=
  match h : w.life c with
  | .alive box => decidable_of_iff ((w.typeOf box.parent).isSome = true) (by simp [World.Stands, h])
  | .absent => isTrue (by simp [World.Stands, h])
  | .gone _ _ => isTrue (by simp [World.Stands, h])

/-- The other container that a line names is there, and of the declared type. -/
def World.Admits (w : World ν τ) : Line ν τ → Prop
  | .create _ aliasName type parent _ =>
      aliasName ≠ w.top ∧ ∃ p ∈ w.types.containers, p.1 = type ∧ w.typeOf parent = some p.2
  | .startLink _ container type _ _ _ | .endLink _ container type _ _ _ =>
      ∃ l ∈ w.types.links, l.1 = type ∧ w.typeOf container = some l.2.1
  | _ => True

instance (w : World ν τ) : (line : Line ν τ) → Decidable (w.Admits line)
  | .create _ _ _ _ _ => inferInstanceAs (Decidable (_ ∧ ∃ p ∈ w.types.containers, _ ∧ _))
  | .startLink _ _ _ _ _ _ => inferInstanceAs (Decidable (∃ l ∈ w.types.links, _ ∧ _))
  | .endLink _ _ _ _ _ _ => inferInstanceAs (Decidable (∃ l ∈ w.types.links, _ ∧ _))
  | .containerType _ _ | .stateType _ _ | .linkType _ _ _ _ | .value _ _ _ | .destroy _ _ _
  | .push _ _ _ _ | .pop _ _ _ => isTrue trivial

/-- One line. -/
def World.step (w : World ν τ) (line : Line ν τ) : Option (World ν τ) :=
  match line.container with
  | none => (w.types.declare w.top line).map fun types => { w with types }
  | some c =>
      if w.Stands c ∧ w.Admits line then
        ((w.life c).step w.types line).map fun l => { w with life := Function.update w.life c l }
      else none

/-- **What a line about a container does**, when it makes sense. -/
theorem World.step_eq_some_iff {w w' : World ν τ} {line : Line ν τ} {c : ν}
    (hc : line.container = some c) : w.step line = some w' ↔ (w.Stands c ∧ w.Admits line) ∧
      ∃ life, (w.life c).step w.types line = some life ∧
        w' = { w with life := Function.update w.life c life } := by
  rw [World.step, hc]
  show (if _ then _ else _) = _ ↔ _
  split
  · next hok => simp [hok, eq_comm]
  · next hnot => simp [hnot]

/-- A trace. -/
def World.run (w : World ν τ) (lines : List (Line ν τ)) : Option (World ν τ) :=
  lines.foldlM World.step w

theorem World.run_append (w : World ν τ) (l l' : List (Line ν τ)) :
    w.run (l ++ l') = (w.run l).bind fun w' => w'.run l' := List.foldlM_append

theorem World.run_cons (w : World ν τ) (line : Line ν τ) (l : List (Line ν τ)) :
    w.run (line :: l) = (w.step line).bind fun w' => w'.run l := rfl

/-! ## Declarations -/

/-- Types with more values, each an alias and a name. -/
def Types.addValues (types : Types ν) (type : ν) (vs : List (ν × ν)) : Types ν :=
  { types with values := types.values ++ vs.map fun v => ((type, v.1), v.2) }

omit [DecidableEq ν] in
theorem Types.addValues_cons (types : Types ν) (type : ν) (v : ν × ν) (vs : List (ν × ν)) :
    types.addValues type (v :: vs) = (types.addValues type [v]).addValues type vs := by
  simp [Types.addValues]

/-- **Values are declared** as long as their aliases are distinct. -/
theorem World.run_values {w : World ν τ} {type : ν} (htype : type ∈ w.types.states.map Prod.fst)
    (vs : List (ν × ν)) (hnodup : (w.types.values.map Prod.fst).Nodup) :
    w.run (vs.map fun v => .value v.1 type v.2) =
      if ((w.types.addValues type vs).values.map Prod.fst).Nodup then
        some { w with types := w.types.addValues type vs }
      else none := by
  induction vs generalizing w with
  | nil =>
    have hnone : w.types.addValues type [] = w.types := by simp [Types.addValues]
    rw [hnone, if_pos hnodup]
    rfl
  | cons v vs ih =>
    rw [List.map_cons, World.run_cons, Types.addValues_cons]
    by_cases hnew : (type, v.1) ∈ w.types.values.map Prod.fst
    · have hstep : w.step (.value v.1 type v.2) = none := by
        simp only [World.step, Line.container, Types.declare, htype, hnew, not_true, and_false,
          if_false, Option.map_none]
      rw [hstep, Option.bind_none, if_neg]
      intro h
      rw [Types.addValues, Types.addValues, List.map_append, List.map_append, List.map_singleton,
        List.append_assoc] at h
      exact (List.nodup_append.mp h).2.2 _ hnew _ (by simp) rfl
    · have hstep : w.step (.value v.1 type v.2) =
          some { w with types := w.types.addValues type [v] } := by
        simp only [World.step, Line.container, Types.declare, htype, hnew, not_false_iff, and_self,
          if_true, Option.map_some]
        rfl
      rw [hstep, Option.bind_some, @ih { w with types := w.types.addValues type [v] } htype]
      rw [Types.addValues, List.map_append, List.map_singleton, List.map_singleton]
      refine List.nodup_append.mpr ⟨hnodup, List.nodup_singleton _, ?_⟩
      rintro x hx y hy rfl
      rw [List.mem_singleton.mp hy] at hx
      exact hnew hx

/-! ## One container -/

/-- The lines of one container. -/
def Life.run (types : Types ν) (life : Life ν τ) (lines : List (Line ν τ)) : Option (Life ν τ) :=
  lines.foldlM (Life.step types) life

theorem Life.run_append (types : Types ν) (life : Life ν τ) (l l' : List (Line ν τ)) :
    life.run types (l ++ l') = (life.run types l).bind fun life' => life'.run types l' :=
  List.foldlM_append

theorem Life.run_cons (types : Types ν) (life : Life ν τ) (line : Line ν τ)
    (l : List (Line ν τ)) :
    life.run types (line :: l) = (life.step types line).bind fun life' => life'.run types l := rfl

/-- The start or end of a call that a line shows. -/
def Line.mark (types : Types ν) : Line ν τ → Option (Calls.Mark τ ν)
  | push t _ type v => some (.enter t (types.nameOf type v))
  | pop t _ _ => some (.leave t)
  | _ => none

/-- A state or a link on a container of type `type`. -/
def Line.Inner (types : Types ν) (type : ν) : Line ν τ → Prop
  | push _ _ state _ | pop _ _ state => (state, type) ∈ types.states
  | startLink _ _ link _ _ _ => ∃ l ∈ types.links, l.1 = link ∧ l.2.2.1 = type
  | endLink _ _ link _ _ _ => ∃ l ∈ types.links, l.1 = link ∧ l.2.2.2 = type
  | _ => False

/-- There are no states or links on a container that is not there. -/
theorem Line.Inner.step_eq_none {types : Types ν} {type : ν} {line : Line ν τ}
    (h : line.Inner types type) {life : Life ν τ} (hlife : ∀ box, life ≠ .alive box) :
    life.step types line = none := by
  cases life with
  | alive box => exact absurd rfl (hlife box)
  | absent =>
    cases line with
    | create t c ty p n => exact h.elim
    | _ => rfl
  | gone box died => cases line <;> rfl

/-- **States and links on a container** are read like the marks among them. -/
theorem Life.run_inner {types : Types ν} {box : Box ν τ} {lines : List (Line ν τ)}
    (h : ∀ line ∈ lines, line.Inner types box.type) :
    (alive box).run types lines = (box.states.run (lines.filterMap (Line.mark types))).map
      fun states => alive { box with states } := by
  induction lines generalizing box with
  | nil => rfl
  | cons line lines ih =>
    have hline := h line List.mem_cons_self
    have hrest : ∀ states, (alive { box with states }).run types lines =
        (states.run (lines.filterMap (Line.mark types))).map
          fun states => alive { box with states } := fun states =>
      @ih { box with states } fun l hl => h l (List.mem_cons_of_mem _ hl)
    rw [Life.run_cons]
    cases line with
    | push t c type value =>
      have hmem : (type, box.type) ∈ types.states := hline
      simp only [Life.step, hmem, if_true, List.filterMap_cons, Line.mark]
      exact hrest _
    | pop t c type =>
      have hmem : (type, box.type) ∈ types.states := hline
      simp only [Life.step, hmem, if_true, List.filterMap_cons, Line.mark]
      rw [Calls.Reading.run, List.foldlM_cons]
      cases hstep : box.states.step (.leave t) with
      | none => rfl
      | some states => exact hrest states
    | startLink t c type source value key =>
      have hlink : ∃ l ∈ types.links, l.1 = type ∧ l.2.2.1 = box.type := hline
      simp only [Life.step, hlink, if_true, List.filterMap_cons, Line.mark]
      exact hrest box.states
    | endLink t c type dest value key =>
      have hlink : ∃ l ∈ types.links, l.1 = type ∧ l.2.2.2 = box.type := hline
      simp only [Life.step, hlink, if_true, List.filterMap_cons, Line.mark]
      exact hrest box.states
    | containerType a p => exact hline.elim
    | stateType a p => exact hline.elim
    | linkType a p s d => exact hline.elim
    | value a t n => exact hline.elim
    | create t a ty p n => exact hline.elim
    | destroy t ty n => exact hline.elim

/-- **A whole life**: what is read of a container is the calls that its lines show. -/
theorem Life.run_whole {types : Types ν} {type parent name c : ν} {born died : τ}
    {inner : List (Line ν τ)} {calls : Calls τ ν} (h : ∀ line ∈ inner, line.Inner types type)
    (hmarks : inner.filterMap (Line.mark types) = calls.marks) :
    absent.run types (.create born c type parent name :: inner ++ [.destroy died type c]) =
      some (gone ⟨type, parent, name, born, ⟨[], calls⟩⟩ died) := by
  have hinner := @Life.run_inner ν τ _ types (Box.fresh type parent name born) _ h
  rw [hmarks, show (Box.fresh type parent name born : Box ν τ).states = Calls.Reading.start from rfl,
    Calls.run_marks_start, Option.map_some] at hinner
  rw [List.cons_append, Life.run_cons]
  show (alive (Box.fresh type parent name born)).run types (inner ++ _) = _
  rw [Life.run_append, hinner]
  simp [Life.run, Life.step, Box.fresh]

/-! ## Container by container -/

/-- What a line rests on is among the containers `P`, and of the declared type. -/
def Line.Framed (w : World ν τ) (P : ν → Prop) : Line ν τ → Prop
  | create _ aliasName type parent _ => aliasName ≠ w.top ∧ P parent ∧
      ∃ p ∈ w.types.containers, p.1 = type ∧ w.typeOf parent = some p.2
  | startLink _ container type _ _ _ | endLink _ container type _ _ _ => P container ∧
      ∃ l ∈ w.types.links, l.1 = type ∧ w.typeOf container = some l.2.1
  | destroy _ _ _ | push _ _ _ _ | pop _ _ _ => True
  | _ => False

theorem Line.Framed.admits {w : World ν τ} {P : ν → Prop} {line : Line ν τ}
    (h : line.Framed w P) : w.Admits line := by
  cases line with
  | create t a ty p n => exact ⟨h.1, h.2.2⟩
  | startLink t c ty s v k => exact h.2
  | endLink t c ty d v k => exact h.2
  | _ => trivial

theorem Line.Framed.container {w : World ν τ} {P : ν → Prop} {line : Line ν τ}
    (h : line.Framed w P) : ∃ c, line.container = some c := by
  cases line with
  | containerType a p => exact h.elim
  | stateType a p => exact h.elim
  | linkType a p s d => exact h.elim
  | value a t n => exact h.elim
  | _ => exact ⟨_, rfl⟩

/-- Another world with the same types, and the same containers in `P`. -/
theorem Line.Framed.congr {w w' : World ν τ} {P : ν → Prop} {line : Line ν τ}
    (h : line.Framed w P) (htop : w'.top = w.top) (htypes : w'.types = w.types)
    (hP : ∀ c, P c → w'.typeOf c = w.typeOf c) : line.Framed w' P := by
  cases line with
  | create t a ty p n =>
    obtain ⟨hne, hp, hex⟩ := h
    exact ⟨htop ▸ hne, hp, by rwa [htypes, hP p hp]⟩
  | startLink t c ty s v k => exact ⟨h.1, by rw [htypes, hP c h.1]; exact h.2⟩
  | endLink t c ty d v k => exact ⟨h.1, by rw [htypes, hP c h.1]; exact h.2⟩
  | _ => exact h

/-- A container stays where it was created. -/
theorem Life.step_parent {types : Types ν} {life : Life ν τ} {line : Line ν τ} {box : Box ν τ}
    (h : life.step types line = some (alive box)) :
    (∃ box₀, life = alive box₀ ∧ box₀.parent = box.parent) ∨
      ∃ t a ty n, line = .create t a ty box.parent n := by
  cases life with
  | absent =>
    cases line with
    | create t a ty p n =>
      have hbox : _ = box := Life.alive.inj (Option.some.inj h)
      exact Or.inr ⟨t, a, ty, n, by rw [← hbox]; rfl⟩
    | _ => cases h
  | gone box₀ died => cases line <;> cases h
  | alive box₀ =>
    refine Or.inl ⟨box₀, rfl, ?_⟩
    cases line with
    | destroy t ty n =>
      simp only [Life.step] at h
      split at h <;> cases h
    | push t c ty v =>
      simp only [Life.step] at h
      split at h
      · obtain ⟨states, -, hs⟩ := Option.map_eq_some_iff.mp h
        rw [← Life.alive.inj hs]
      · cases h
    | pop t c ty =>
      simp only [Life.step] at h
      split at h
      · obtain ⟨states, -, hs⟩ := Option.map_eq_some_iff.mp h
        rw [← Life.alive.inj hs]
      · cases h
    | startLink t c ty s v k | endLink t c ty d v k =>
      simp only [Life.step] at h
      split at h
      · rw [Life.alive.inj (Option.some.inj h)]
      · cases h
    | _ => cases h

/-- **A trace is read container by container.** When the containers `P` are there and no line is
    about them, and everything the lines rest on is among them, the trace is read as soon as the
    lines of each container are, and what is read of a container is what they say. -/
theorem World.run_of_lives {w : World ν τ} {P : ν → Prop} {lines : List (Line ν τ)}
    {f : ν → Life ν τ} (hP : ∀ c, P c → (w.typeOf c).isSome = true)
    (howner : ∀ line ∈ lines, ∀ c, line.container = some c → ¬ P c)
    (hframed : ∀ line ∈ lines, line.Framed w P)
    (hparent : ∀ c box, ¬ P c → w.life c = .alive box → P box.parent)
    (hlives : ∀ c, (w.life c).run w.types (lines.filter fun line => line.container = some c) =
      some (f c)) :
    w.run lines = some { w with life := f } := by
  induction lines generalizing w with
  | nil =>
    have hlife : w.life = f := funext fun c => Option.some.inj (hlives c)
    rw [← hlife]
    rfl
  | cons line lines ih =>
    have hline := hframed line List.mem_cons_self
    obtain ⟨c, hc⟩ := hline.container
    have hnot := howner line List.mem_cons_self c hc
    have hown := hlives c
    rw [List.filter_cons_of_pos (by simp [hc]), Life.run_cons] at hown
    obtain ⟨life', hstep, hrest⟩ := Option.bind_eq_some_iff.mp hown
    -- the line itself
    have hstands : w.Stands c := by
      unfold World.Stands
      cases hl : w.life c with
      | alive box => exact hP _ (hparent c box hnot hl)
      | absent => trivial
      | gone box died => trivial
    have hread : w.step line = some { w with life := Function.update w.life c life' } :=
      (World.step_eq_some_iff hc).mpr ⟨⟨hstands, hline.admits⟩, life', hstep, rfl⟩
    -- what the other lines rest on is as before
    have htype : ∀ p, P p →
        World.typeOf { w with life := Function.update w.life c life' } p = w.typeOf p := by
      intro p hp
      have hne : p ≠ c := fun heq => hnot (heq ▸ hp)
      simp only [World.typeOf, Function.update_of_ne hne]
    rw [World.run_cons, hread, Option.bind_some]
    refine (@ih { w with life := Function.update w.life c life' } ?_ ?_ ?_ ?_ ?_).trans rfl
    · exact fun p hp => (htype p hp).symm ▸ hP p hp
    · exact fun l hl => howner l (List.mem_cons_of_mem _ hl)
    · exact fun l hl => (hframed l (List.mem_cons_of_mem _ hl)).congr rfl rfl htype
    · intro d box hd hbox
      have hbox : Function.update w.life c life' d = .alive box := hbox
      by_cases hdc : d = c
      · subst hdc
        rw [Function.update_self] at hbox
        rcases Life.step_parent (hstep.trans (congrArg some hbox)) with
          ⟨box₀, hlife, hpar⟩ | ⟨t, a, ty, n, heq⟩
        · exact hpar ▸ hparent d box₀ hd hlife
        · rw [heq] at hline
          exact hline.2.1
      · exact hparent d box hd (by rwa [Function.update_of_ne hdc] at hbox)
    · intro d
      by_cases hdc : d = c
      · subst hdc
        simpa only [Function.update_self] using hrest
      · have hother := hlives d
        rw [List.filter_cons_of_neg (by simp [hc, Ne.symm hdc])] at hother
        simpa only [Function.update_of_ne hdc] using hother

/-! ## Under one root -/

/-- The world with a root in it. -/
def World.withRoot (w : World ν τ) (root type name : ν) (born : τ) : World ν τ :=
  { w with life := Function.update w.life root (.alive (Box.fresh type w.top name born)) }

/-- The world when its root is gone. -/
def World.withoutRoot (w : World ν τ) (root type name : ν) (born died : τ) : World ν τ :=
  { w with life := Function.update w.life root (.gone (Box.fresh type w.top name born) died) }

theorem World.life_root (w : World ν τ) (root type name : ν) (born : τ) :
    (w.withRoot root type name born).life root = .alive (Box.fresh type w.top name born) :=
  Function.update_self _ _ _

theorem World.life_withRoot (w : World ν τ) {root c : ν} (hc : c ≠ root) (type name : ν) (born : τ) :
    (w.withRoot root type name born).life c = w.life c := Function.update_of_ne hc _ _

theorem World.create_root {w : World ν τ} {root type : ν} (htype : (type, w.top) ∈ w.types.containers)
    (hne : root ≠ w.top) (habsent : w.life root = .absent) (name : ν) (born : τ) :
    w.step (.create born root type w.top name) = some (w.withRoot root type name born) := by
  have hadmits : w.Admits (.create born root type w.top name) :=
    ⟨hne, (type, w.top), htype, rfl, if_pos rfl⟩
  have hstands : w.Stands root := by simp only [World.Stands, habsent]
  show (if _ then _ else _) = _
  rw [if_pos ⟨hstands, hadmits⟩, habsent]
  rfl

theorem World.destroy_root {w : World ν τ} {root type name : ν} {born : τ}
    (hlife : w.life root = .alive (Box.fresh type w.top name born)) (died : τ) :
    w.step (.destroy died type root) = some (w.withoutRoot root type name born died) := by
  have hstands : w.Stands root := by simp [World.Stands, hlife, Box.fresh, World.typeOf]
  show (if _ then _ else _) = _
  rw [if_pos ⟨hstands, trivial⟩, hlife]
  simp [Life.step, Box.fresh, Calls.Reading.start, World.withoutRoot]

theorem World.withoutRoot_withRoot (w : World ν τ) (root type name : ν) (born died : τ) :
    (w.withRoot root type name born).withoutRoot root type name born died =
      w.withoutRoot root type name born died := by
  simp [World.withRoot, World.withoutRoot]

theorem World.typeOf_root {w : World ν τ} {root : ν} (hne : root ≠ w.top) (type name : ν)
    (born : τ) : (w.withRoot root type name born).typeOf root = some type := by
  simp only [World.typeOf, World.withRoot, if_neg hne, Function.update_self, Box.fresh]

/-- A line about a container other than the root, which it rests on. -/
def Line.Under (types : Types ν) (top root rtype : ν) (line : Line ν τ) : Prop :=
  line.container ≠ some top ∧ line.container ≠ some root ∧
    match line with
    | create _ _ type parent _ => parent = root ∧ (type, rtype) ∈ types.containers
    | startLink _ container type _ _ _ | endLink _ container type _ _ _ =>
        container = root ∧ ∃ l ∈ types.links, l.1 = type ∧ l.2.1 = rtype
    | destroy _ _ _ | push _ _ _ _ | pop _ _ _ => True
    | _ => False

theorem Line.Under.framed {w : World ν τ} {root rtype : ν} {line : Line ν τ}
    (h : line.Under w.types w.top root rtype) (hroot : w.typeOf root = some rtype) :
    line.Framed w (· = root) := by
  obtain ⟨htop, -, h⟩ := h
  cases line with
  | create t a ty p n =>
    obtain ⟨hp, hmem⟩ := h
    exact ⟨fun heq => htop (congrArg some heq), hp, (ty, rtype), hmem, rfl, hp ▸ hroot⟩
  | startLink t c ty s v k =>
    obtain ⟨hc, l, hl, hty, hr⟩ := h
    exact ⟨hc, l, hl, hty, by rw [hc, hroot, hr]⟩
  | endLink t c ty d v k =>
    obtain ⟨hc, l, hl, hty, hr⟩ := h
    exact ⟨hc, l, hl, hty, by rw [hc, hroot, hr]⟩
  | _ => exact h

/-- **A trace under one root**, which is created before everything and destroyed after it. -/
theorem World.run_rooted {w : World ν τ} {root rtype name : ν} {born died : τ}
    {lines : List (Line ν τ)} {f : ν → Life ν τ} (htype : (rtype, w.top) ∈ w.types.containers)
    (hne : root ≠ w.top) (habsent : w.life = fun _ => .absent)
    (hunder : ∀ line ∈ lines, line.Under w.types w.top root rtype)
    (hlives : ∀ c, Life.absent.run w.types (lines.filter fun line => line.container = some c) =
      some (f c)) :
    w.run (.create born root rtype w.top name :: lines ++ [.destroy died rtype root]) =
      some ({ w with life := f }.withoutRoot root rtype name born died) := by
  have hnone : lines.filter (fun line => line.container = some root) = [] :=
    List.filter_eq_nil_iff.mpr fun line hl => by simp [(hunder line hl).2.1]
  have hbody : (w.withRoot root rtype name born).run lines =
      some ({ w with life := f }.withRoot root rtype name born) := by
    refine World.run_of_lives (P := (· = root)) ?_ ?_ ?_ ?_ ?_
    · rintro c rfl
      rw [World.typeOf_root hne]
      rfl
    · rintro line hl c hc rfl
      exact (hunder line hl).2.1 hc
    · exact fun line hl => Line.Under.framed (hunder line hl) (World.typeOf_root hne _ _ _)
    · intro c box hc hbox
      rw [World.life_withRoot w hc, habsent] at hbox
      cases hbox
    · intro c
      by_cases hc : c = root
      · subst hc
        rw [hnone, World.life_root, Function.update_self]
        rfl
      · rw [World.life_withRoot w hc, habsent, Function.update_of_ne hc]
        exact hlives c
  rw [List.cons_append, World.run_cons, World.create_root htype hne (by rw [habsent]),
    Option.bind_some, World.run_append, hbody, Option.bind_some, World.run_cons,
    World.destroy_root (World.life_root _ root rtype name born), Option.bind_some,
    World.withoutRoot_withRoot]
  rfl

/-! ## Time -/

/-- The times that were read of a container. -/
def Life.times : Life ν τ → List τ
  | absent => []
  | alive box => box.born :: box.states.times
  | gone box died => box.born :: (box.states.times ++ [died])

omit [DecidableEq ν] in
theorem times_mark {box : Box ν τ} {states : Calls.Reading τ ν} {m : Calls.Mark τ ν}
    (h : box.states.step m = some states) :
    (Life.alive { box with states }).times = (Life.alive box).times ++ [m.time] := by
  show box.born :: states.times = _
  rw [Calls.Reading.times_step h]
  rfl

/-- A line adds its time, or none. -/
theorem Life.times_step {types : Types ν} {life life' : Life ν τ} {line : Line ν τ}
    (h : life.step types line = some life') :
    life'.times.Sublist (life.times ++ line.time.toList) := by
  cases life with
  | absent =>
    cases line with
    | create t a ty p n =>
      cases h
      exact List.Sublist.refl [t]
    | _ => cases h
  | gone box died => cases line <;> cases h
  | alive box =>
    cases line with
    | destroy t ty n =>
      simp only [Life.step] at h
      split at h
      · cases h
        exact List.Sublist.refl _
      · cases h
    | push t c ty v =>
      simp only [Life.step] at h
      split at h
      · obtain ⟨states, hstep, rfl⟩ := Option.map_eq_some_iff.mp h
        rw [times_mark hstep]
        exact List.Sublist.refl _
      · cases h
    | pop t c ty =>
      simp only [Life.step] at h
      split at h
      · obtain ⟨states, hstep, rfl⟩ := Option.map_eq_some_iff.mp h
        rw [times_mark hstep]
        exact List.Sublist.refl _
      · cases h
    | startLink t c ty s v k | endLink t c ty d v k =>
      simp only [Life.step] at h
      split at h
      · cases h
        exact List.sublist_append_left _ _
      · cases h
    | _ => cases h

/-- A line changes its own container only, -/
theorem World.life_step_of_ne {w w' : World ν τ} {line : Line ν τ} (h : w.step line = some w')
    {c : ν} (hc : line.container ≠ some c) : w'.life c = w.life c := by
  cases hd : line.container with
  | none =>
    rw [World.step, hd] at h
    obtain ⟨types, -, rfl⟩ := Option.map_eq_some_iff.mp h
    rfl
  | some d =>
    obtain ⟨-, life', -, rfl⟩ := (World.step_eq_some_iff hd).mp h
    exact Function.update_of_ne (fun hcd => hc (by rw [hd, hcd])) _ _

/-- and adds its time to what is known of it. -/
theorem World.times_step {w w' : World ν τ} {line : Line ν τ} (h : w.step line = some w') (c : ν) :
    (w'.life c).times.Sublist ((w.life c).times ++ line.time.toList) := by
  by_cases hc : line.container = some c
  · obtain ⟨-, life', hstep, rfl⟩ := (World.step_eq_some_iff hc).mp h
    simpa only [Function.update_self] using Life.times_step hstep
  · rw [World.life_step_of_ne h hc]
    exact List.sublist_append_left _ _

/-- **What is read of a container are times of its lines, in their order.** -/
theorem World.times_run {lines : List (Line ν τ)} {w w' : World ν τ} (h : w.run lines = some w')
    (c : ν) : (w'.life c).times.Sublist ((w.life c).times ++
      (lines.filter fun line => line.container = some c).filterMap Line.time) := by
  induction lines generalizing w with
  | nil =>
    cases h
    exact List.sublist_append_left _ _
  | cons line lines ih =>
    rw [World.run_cons] at h
    obtain ⟨w₁, hstep, hrun⟩ := Option.bind_eq_some_iff.mp h
    refine (ih hrun).trans ?_
    by_cases hc : line.container = some c
    · have htime : ((line :: lines).filter fun line => line.container = some c).filterMap Line.time =
          line.time.toList ++
            (lines.filter fun line => line.container = some c).filterMap Line.time := by
        rw [List.filter_cons_of_pos (by simpa using hc), List.filterMap_cons]
        cases line.time <;> rfl
      rw [htime, ← List.append_assoc]
      exact (World.times_step hstep c).append (List.Sublist.refl _)
    · rw [List.filter_cons_of_neg (by simpa using hc), World.life_step_of_ne hstep hc]

/-- **Where the lines of a container are in the order of time** its calls are within its life,
    within the calls that make them, and over before the next. -/
theorem World.timed_of_run [Preorder τ] {lines : List (Line ν τ)} {top : ν} {w : World ν τ}
    (h : (World.start top).run lines = some w) {c : ν} {box : Box ν τ} {died : τ}
    (ho : ((lines.filter fun line => line.container = some c).filterMap Line.time).Pairwise
      (· ≤ ·))
    (hc : w.life c = .gone box died) (hover : box.states.outer = []) :
    box.states.calls.Timed box.born died := by
  have hsub := World.times_run h c
  rw [hc] at hsub
  refine Calls.timed_of_pairwise (ho.sublist ?_)
  simpa [World.start, Life.times, Calls.Reading.times, hover] using hsub

end

end Scene

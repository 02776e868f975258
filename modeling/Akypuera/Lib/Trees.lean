import Akypuera.Lib.Scene

/-!
# Trees of containers

Containers that are created below one another, each type declared just before its first container
(`plant`). **A reader accepts them exactly when names are apart and each type is under one other**
(`plant_iff`), and knows then where each of them is (`Grown`).
-/

set_option autoImplicit false

namespace Scene

variable {ν τ : Type}

/-- A container and its type, and what they are under. -/
structure Spot (ν : Type) where
  name : ν
  type : ν
  parent : ν
  parentType : ν
  deriving DecidableEq

section
variable [DecidableEq ν]

/-- What is written for a container after others. -/
def Spot.lines (time : τ) (before : List (Spot ν)) (p : Spot ν) : List (Line ν τ) :=
  (if p.type ∈ before.map Spot.type then [] else [.containerType p.type p.parentType]) ++
    [.create time p.name p.type p.parent p.name]

def plantFrom (time : τ) : List (Spot ν) → List (Spot ν) → List (Line ν τ)
  | _, [] => []
  | before, p :: ps => p.lines time before ++ plantFrom time (before ++ [p]) ps

/-- What is written for containers. -/
def plant (time : τ) (ps : List (Spot ν)) : List (Line ν τ) := plantFrom time [] ps

theorem plantFrom_snoc (time : τ) (before ps : List (Spot ν)) (p : Spot ν) :
    plantFrom time before (ps ++ [p]) = plantFrom time before ps ++ p.lines time (before ++ ps) := by
  induction ps generalizing before with
  | nil => simp [plantFrom]
  | cons q ps ih => simp [plantFrom, ih]

theorem plant_snoc (time : τ) (ps : List (Spot ν)) (p : Spot ν) :
    plant time (ps ++ [p]) = plant time ps ++ p.lines time ps := plantFrom_snoc time [] ps p

end

/-- It is under the top, or under one of these, and so is its type. -/
def Spot.Below (top : ν) (before : List (Spot ν)) (p : Spot ν) : Prop :=
  p.parent = top ∧ p.parentType = top ∨ ∃ q ∈ before, q.name = p.parent ∧ q.type = p.parentType

/-- Each is below what comes before it. -/
def Ranked (top : ν) (ps : List (Spot ν)) : Prop :=
  ∀ before p after, ps = before ++ p :: after → p.Below top before

/-- **Names are apart, and each type is under one other.** -/
structure Rooted (top : ν) (ps : List (Spot ν)) : Prop where
  distinct : (ps.map Spot.name).Nodup
  names : ∀ p ∈ ps, p.name ≠ top
  types : ∀ p ∈ ps, p.type ≠ top
  uniform : ∀ p ∈ ps, ∀ q ∈ ps, p.type = q.type → p.parentType = q.parentType

/-- A world in which these are all there is. -/
structure Grown (top : ν) (time : τ) (ps : List (Spot ν)) (w : World ν τ) : Prop where
  rooted : Rooted top ps
  top : w.top = top
  types : ∀ t q, (t, q) ∈ w.types.containers ↔ ∃ p ∈ ps, p.type = t ∧ p.parentType = q
  bare : w.types = ⟨w.types.containers, [], [], []⟩
  life : ∀ p ∈ ps, w.life p.name = .alive (Box.fresh p.type p.parent p.name time)
  absent : ∀ c, c ∉ ps.map Spot.name → w.life c = .absent

variable {top : ν} {time : τ} {ps : List (Spot ν)} {p : Spot ν} {w w' : World ν τ}

theorem Ranked.init (h : Ranked top (ps ++ [p])) : Ranked top ps := by
  intro before q after heq
  exact h before q (after ++ [p]) (by rw [heq, List.append_assoc]; rfl)

theorem Ranked.snoc (h : Ranked top ps) (hp : p.Below top ps) : Ranked top (ps ++ [p]) := by
  intro before q after heq
  induction after using List.reverseRecOn with
  | nil =>
    obtain ⟨rfl, hq⟩ := List.append_inj' heq rfl
    rwa [← List.cons.inj hq |>.1]
  | append_singleton after x _ =>
    rw [← List.cons_append, ← List.append_assoc] at heq
    exact h before q after (List.append_inj' heq rfl).1

theorem Ranked.last (h : Ranked top (ps ++ [p])) : p.Below top ps := h ps p [] rfl

theorem Rooted.init (h : Rooted top (ps ++ [p])) : Rooted top ps where
  distinct := by
    have hnodup := h.distinct
    rw [List.map_append] at hnodup
    exact (List.nodup_append.mp hnodup).1
  names q hq := h.names q (List.mem_append_left _ hq)
  types q hq := h.types q (List.mem_append_left _ hq)
  uniform q hq q' hq' := h.uniform q (List.mem_append_left _ hq) q' (List.mem_append_left _ hq')

/-- One more. -/
theorem rooted_snoc_iff (h : Rooted top ps) : Rooted top (ps ++ [p]) ↔
    p.name ∉ ps.map Spot.name ∧ p.name ≠ top ∧ p.type ≠ top ∧
      ∀ q ∈ ps, q.type = p.type → q.parentType = p.parentType := by
  constructor
  · intro hall
    refine ⟨fun hmem => ?_, hall.names p (by simp), hall.types p (by simp), fun q hq htype =>
      hall.uniform q (by simp [hq]) p (by simp) htype⟩
    have hnodup := hall.distinct
    rw [List.map_append] at hnodup
    exact (List.nodup_append.mp hnodup).2.2 _ hmem _ (by simp) rfl
  · rintro ⟨hnew, hname, htype, hunder⟩
    refine ⟨?_, ?_, ?_, ?_⟩
    · rw [List.map_append]
      refine List.nodup_append.mpr ⟨h.distinct, List.nodup_singleton _, ?_⟩
      rintro x hx y hy rfl
      exact hnew (List.mem_singleton.mp hy ▸ hx)
    · intro q hq
      rcases List.mem_append.mp hq with hq | hq
      · exact h.names q hq
      · exact List.mem_singleton.mp hq ▸ hname
    · intro q hq
      rcases List.mem_append.mp hq with hq | hq
      · exact h.types q hq
      · exact List.mem_singleton.mp hq ▸ htype
    · intro q hq q' hq' heq
      rcases List.mem_append.mp hq with hq | hq
      · rcases List.mem_append.mp hq' with hq' | hq'
        · exact h.uniform q hq q' hq' heq
        · rw [List.mem_singleton.mp hq'] at heq ⊢
          exact hunder q hq heq
      · rw [List.mem_singleton.mp hq] at heq ⊢
        rcases List.mem_append.mp hq' with hq' | hq'
        · exact (hunder q' hq' heq.symm).symm
        · rw [List.mem_singleton.mp hq']

section
variable [DecidableEq ν]

namespace Grown

omit [DecidableEq ν] in
theorem start (top : ν) (time : τ) : Grown top time [] (World.start top) where
  rooted := ⟨List.nodup_nil, List.forall_mem_nil _, List.forall_mem_nil _, List.forall_mem_nil _⟩
  top := rfl
  types t q := by simp [World.start]
  bare := rfl
  life := List.forall_mem_nil _
  absent _ _ := rfl

theorem typeOf_top (h : Grown top time ps w) : w.typeOf top = some top := by
  rw [World.typeOf, h.top, if_pos rfl]

/-- Each is there, with its type. -/
theorem typeOf (h : Grown top time ps w) {q : Spot ν} (hq : q ∈ ps) :
    w.typeOf q.name = some q.type := by
  rw [World.typeOf, if_neg (h.top ▸ h.rooted.names q hq), h.life q hq]
  rfl

/-- What is above the next one is there. -/
theorem typeOf_above (h : Grown top time ps w) (hb : p.Below top ps) :
    w.typeOf p.parent = some p.parentType := by
  rcases hb with ⟨hparent, htype⟩ | ⟨q, hq, hname, htype⟩
  · rw [hparent, htype, h.typeOf_top]
  · rw [← hname, ← htype, h.typeOf hq]

omit [DecidableEq ν] in
/-- Its types are the ones of the containers, and the top. -/
theorem isContainer_iff (h : Grown top time ps w) (t : ν) :
    w.types.IsContainer w.top t ↔ t = top ∨ t ∈ ps.map Spot.type := by
  rw [Types.IsContainer, h.top, List.mem_map, List.mem_map]
  constructor
  · rintro (heq | ⟨⟨t', q⟩, hmem, rfl⟩)
    · exact .inl heq
    · obtain ⟨p, hp, htype, -⟩ := (h.types t' q).mp hmem
      exact .inr ⟨p, hp, htype⟩
  · rintro (heq | ⟨p, hp, rfl⟩)
    · exact .inl heq
    · exact .inr ⟨(p.type, p.parentType), (h.types _ _).mpr ⟨p, hp, rfl, rfl⟩, rfl⟩

omit [DecidableEq ν] in
theorem isContainer_above (h : Grown top time ps w) (hb : p.Below top ps) :
    w.types.IsContainer w.top p.parentType := by
  rw [h.isContainer_iff]
  rcases hb with ⟨-, htype⟩ | ⟨q, hq, -, htype⟩
  · exact .inl htype
  · exact .inr (List.mem_map.mpr ⟨q, hq, htype⟩)

end Grown

/-- The world when a container is created, -/
def World.placed (w : World ν τ) (time : τ) (p : Spot ν) : World ν τ :=
  let box := Box.fresh p.type p.parent p.name time
  { w with life := Function.update w.life p.name (.alive box) }

/-- and when its type is declared. -/
def World.typed (w : World ν τ) (ps : List (Spot ν)) (p : Spot ν) : World ν τ :=
  let new := if p.type ∈ ps.map Spot.type then [] else [(p.type, p.parentType)]
  { w with types := { w.types with containers := w.types.containers ++ new } }

/-- **Its type is declared** if it is new, and is not the top. -/
theorem Grown.declare (h : Grown top time ps w) (hb : p.Below top ps) :
    w.run (if p.type ∈ ps.map Spot.type then [] else [.containerType p.type p.parentType]) =
      if p.type = top then none else some (w.typed ps p) := by
  by_cases hold : p.type ∈ ps.map Spot.type
  · have hne : p.type ≠ top := by
      obtain ⟨q, hq, htype⟩ := List.mem_map.mp hold
      exact htype ▸ h.rooted.types q hq
    rw [World.typed, if_pos hold, if_pos hold, if_neg hne, List.append_nil]
    rfl
  · have habove := h.isContainer_above hb
    have hiff := h.isContainer_iff p.type
    rw [World.typed, if_neg hold, if_neg hold, World.run_cons]
    by_cases htop : p.type = top
    · have hknown : w.types.IsContainer w.top p.type := hiff.mpr (.inl htop)
      rw [if_pos htop]
      simp only [World.step, Line.container, Types.declare, hknown, not_true, and_false, if_false,
        Option.map_none, Option.bind_none]
    · have hnew : ¬ w.types.IsContainer w.top p.type := fun hc =>
        (hiff.mp hc).elim htop hold
      rw [if_neg htop]
      simp only [World.step, Line.container, Types.declare, habove, hnew, not_false_iff, and_self,
        if_true, Option.map_some, Option.bind_some]
      rfl

theorem Grown.mem_typed (h : Grown top time ps w) (t q : ν) :
    (t, q) ∈ (w.typed ps p).types.containers ↔
      (∃ p' ∈ ps, p'.type = t ∧ p'.parentType = q) ∨
        p.type ∉ ps.map Spot.type ∧ p.type = t ∧ p.parentType = q := by
  show _ ∈ _ ++ _ ↔ _
  rw [List.mem_append, h.types]
  split
  · next hold => simp [hold]
  · next hnew => simp [hnew, eq_comm]

/-- **It is created** when its name is new and its type is under what it is under. -/
theorem Grown.create_iff (h : Grown top time ps w) (hb : p.Below top ps) :
    (w.typed ps p).step (.create time p.name p.type p.parent p.name) = some w' ↔
      (p.name ∉ ps.map Spot.name ∧ p.name ≠ top ∧
        ∀ q ∈ ps, q.type = p.type → q.parentType = p.parentType) ∧
      w' = (w.typed ps p).placed time p := by
  have habove : (w.typed ps p).typeOf p.parent = some p.parentType := h.typeOf_above hb
  have hadmits : (w.typed ps p).Admits (.create time p.name p.type p.parent p.name) ↔
      p.name ≠ top ∧ ∀ q ∈ ps, q.type = p.type → q.parentType = p.parentType := by
    refine and_congr (by rw [show (w.typed ps p).top = w.top from rfl, h.top]) ?_
    simp only [habove, Option.some.injEq]
    constructor
    · rintro ⟨⟨t, under⟩, hmem, rfl, rfl⟩ q hq htype
      rcases (h.mem_typed _ _).mp hmem with ⟨q', hq', htype', hunder'⟩ | ⟨hnew, -, -⟩
      · exact (h.rooted.uniform q hq q' hq' (htype.trans htype'.symm)).trans hunder'
      · exact absurd (List.mem_map.mpr ⟨q, hq, htype⟩) hnew
    · intro hunder
      refine ⟨(p.type, p.parentType), (h.mem_typed _ _).mpr ?_, rfl, rfl⟩
      by_cases hold : p.type ∈ ps.map Spot.type
      · obtain ⟨q, hq, htype⟩ := List.mem_map.mp hold
        exact .inl ⟨q, hq, htype, hunder q hq htype⟩
      · exact .inr ⟨hold, rfl, rfl⟩
  rw [World.step_eq_some_iff rfl]
  constructor
  · rintro ⟨⟨-, hok⟩, life, hlife, rfl⟩
    have hnew : p.name ∉ ps.map Spot.name := by
      intro hmem
      obtain ⟨q, hq, hname⟩ := List.mem_map.mp hmem
      rw [show (w.typed ps p).life = w.life from rfl, ← hname, h.life q hq] at hlife
      cases hlife
    rw [show (w.typed ps p).life p.name = .absent from h.absent _ hnew] at hlife
    cases hlife
    exact ⟨⟨hnew, hadmits.mp hok⟩, rfl⟩
  · rintro ⟨⟨hnew, hrest⟩, rfl⟩
    have habsent : (w.typed ps p).life p.name = .absent := h.absent _ hnew
    have hstands : (w.typed ps p).Stands p.name := by simp only [World.Stands, habsent]
    exact ⟨⟨hstands, hadmits.mpr hrest⟩, _, by rw [habsent]; rfl, rfl⟩

/-- **One more container.** -/
theorem Grown.run_lines_iff (h : Grown top time ps w) (hb : p.Below top ps) :
    w.run (p.lines time ps) = some w' ↔
      Rooted top (ps ++ [p]) ∧ w' = (w.typed ps p).placed time p := by
  rw [rooted_snoc_iff h.rooted, Spot.lines, World.run_append, h.declare hb]
  by_cases htop : p.type = top
  · simp [htop]
  · rw [if_neg htop, Option.bind_some]
    simp only [World.run, List.foldlM_cons, List.foldlM_nil, bind_pure, h.create_iff hb]
    exact ⟨fun ⟨⟨hnew, hname, hunder⟩, heq⟩ => ⟨⟨hnew, hname, htop, hunder⟩, heq⟩,
      fun ⟨⟨hnew, hname, _, hunder⟩, heq⟩ => ⟨⟨hnew, hname, hunder⟩, heq⟩⟩

theorem Grown.next (h : Grown top time ps w) (hr : Rooted top (ps ++ [p])) :
    Grown top time (ps ++ [p]) ((w.typed ps p).placed time p) := by
  obtain ⟨hnew, -, -, hunder⟩ := (rooted_snoc_iff h.rooted).mp hr
  refine ⟨hr, h.top, fun t q => (h.mem_typed t q).trans ?_, ?_, fun q hq => ?_, fun c hc => ?_⟩
  · constructor
    · rintro (⟨q', hq', heq⟩ | ⟨-, heq⟩)
      · exact ⟨q', List.mem_append_left _ hq', heq⟩
      · exact ⟨p, by simp, heq⟩
    · rintro ⟨q', hq', htype, hpar⟩
      rcases List.mem_append.mp hq' with hq' | hq'
      · exact .inl ⟨q', hq', htype, hpar⟩
      · rw [List.mem_singleton.mp hq'] at htype hpar
        by_cases hold : p.type ∈ ps.map Spot.type
        · obtain ⟨q'', hq'', htype''⟩ := List.mem_map.mp hold
          exact .inl ⟨q'', hq'', htype''.trans htype, (hunder q'' hq'' htype'').trans hpar⟩
        · exact .inr ⟨hold, htype, hpar⟩
  · show Types.mk (w.types.containers ++ _) w.types.states w.types.links w.types.values = _
    rw [h.bare]
    rfl
  · rcases List.mem_append.mp hq with hq | hq
    · have hne : q.name ≠ p.name := fun heq => hnew (List.mem_map.mpr ⟨q, hq, heq⟩)
      exact (Function.update_of_ne hne _ _).trans (h.life q hq)
    · rw [List.mem_singleton.mp hq]
      exact Function.update_self _ _ _
  · rw [List.map_append, List.mem_append, not_or] at hc
    have hne : c ≠ p.name := fun heq => hc.2 (by simp [heq])
    exact (Function.update_of_ne hne _ _).trans (h.absent c hc.1)

/-- What is known when they are all there. -/
theorem grown_of_run (hranked : Ranked top ps)
    (hrun : (World.start top).run (plant time ps) = some w) : Grown top time ps w := by
  induction ps using List.reverseRecOn generalizing w with
  | nil =>
    cases hrun
    exact Grown.start top time
  | append_singleton ps p ih =>
    rw [plant_snoc, World.run_append] at hrun
    obtain ⟨w₁, hbefore, hlast⟩ := Option.bind_eq_some_iff.mp hrun
    have hgrown := ih hranked.init hbefore
    obtain ⟨hr, rfl⟩ := (hgrown.run_lines_iff hranked.last).mp hlast
    exact hgrown.next hr

/-- **Containers below one another are accepted exactly when names are apart and each type is under
    one other.** -/
theorem plant_iff (hranked : Ranked top ps) :
    (∃ w, (World.start top).run (plant time ps) = some w) ↔ Rooted top ps := by
  constructor
  · rintro ⟨w, hrun⟩
    exact (grown_of_run hranked hrun).rooted
  · intro h
    induction ps using List.reverseRecOn with
    | nil => exact ⟨_, rfl⟩
    | append_singleton ps p ih =>
      obtain ⟨w, hrun⟩ := ih hranked.init h.init
      have hlast := ((grown_of_run hranked.init hrun).run_lines_iff hranked.last).mpr ⟨h, rfl⟩
      exact ⟨_, by rw [plant_snoc, World.run_append, hrun, Option.bind_some, hlast]⟩

end

end Scene

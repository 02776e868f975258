import Akypuera.Lib.Scene

/-!
# Processes that run side by side

Each process is born, starts calls, returns from them and dies; `Stage` is how far it is. A return
without a call, a call before the birth or a death within a call is refused, and the processes do
not see each other (`run_iff`).

A trace that writes each act as a line of its own (`Cast`) is a translation of such a run. **The
reader of the trace accepts exactly the runs that make sense, and reads of each container what its
process did** (`Cast.run_put`), whatever the processes are called in the trace.
-/

set_option autoImplicit false

namespace Actors

open Scene

variable {π τ φ μ ν σ : Type}

/-- What a process does; a `note` is an act that starts and ends nothing. -/
inductive Act (τ φ μ : Type) where
  | born (t : τ)
  | enter (t : τ) (f : φ)
  | leave (t : τ)
  | note (m : μ)
  | died (t : τ)
  deriving DecidableEq

/-- How far a process is. -/
inductive Stage (τ φ : Type) where
  | absent
  | alive (born : τ) (reading : Calls.Reading τ φ)
  | gone (born : τ) (calls : Calls τ φ) (died : τ)
  deriving DecidableEq

/-- One act. -/
def Stage.step : Stage τ φ → Act τ φ μ → Option (Stage τ φ)
  | absent, .born t => some (alive t Calls.Reading.start)
  | alive b r, .enter t f => (r.step (.enter t f)).map (alive b)
  | alive b r, .leave t => (r.step (.leave t)).map (alive b)
  | alive b r, .note _ => some (alive b r)
  | alive b r, .died t => if r.outer.isEmpty then some (gone b r.calls t) else none
  | _, _ => none

/-- The acts of one process. -/
def Stage.run (s : Stage τ φ) (acts : List (Act τ φ μ)) : Option (Stage τ φ) :=
  acts.foldlM Stage.step s

theorem Stage.run_cons (s : Stage τ φ) (a : Act τ φ μ) (acts : List (Act τ φ μ)) :
    s.run (a :: acts) = (s.step a).bind fun s' => s'.run acts := rfl

theorem Stage.run_append (s : Stage τ φ) (l l' : List (Act τ φ μ)) :
    s.run (l ++ l') = (s.run l).bind fun s' => s'.run l' := List.foldlM_append

/-- The acts of calls. -/
def actsOf (c : Calls τ φ) : List (Act τ φ μ) :=
  c.render (fun f t => [.enter t f]) fun _ t => [.leave t]

/-- The start or return of an act. -/
def Act.mark : Act τ φ μ → Option (Calls.Mark τ φ)
  | .enter t f => some (.enter t f)
  | .leave t => some (.leave t)
  | _ => none

/-- An act within a life. -/
def Act.isInner : Act τ φ μ → Bool
  | .enter _ _ | .leave _ | .note _ => true
  | _ => false

/-- **Acts within a life** are read like their marks. -/
theorem Stage.run_inner {b : τ} {r : Calls.Reading τ φ} {acts : List (Act τ φ μ)}
    (h : ∀ a ∈ acts, a.isInner = true) :
    (alive b r).run acts = (r.run (acts.filterMap Act.mark)).map (alive b) := by
  induction acts generalizing r with
  | nil => rfl
  | cons a acts ih =>
    have hrest := fun r' => @ih r' fun a' ha' => h a' (List.mem_cons_of_mem _ ha')
    have hmarks : ∀ m : Calls.Mark τ φ, ((r.step m).map (alive b)).bind (·.run acts) =
        (r.run (m :: acts.filterMap Act.mark)).map (alive b) := by
      intro m
      rw [Calls.Reading.run, List.foldlM_cons]
      cases hstep : r.step m with
      | none => rfl
      | some r' => exact hrest r'
    rw [Stage.run_cons]
    cases a with
    | enter t f => exact hmarks (.enter t f)
    | leave t => exact hmarks (.leave t)
    | note m => exact hrest r
    | born t | died t => exact absurd (h _ List.mem_cons_self) Bool.false_ne_true

/-- **A whole life**: what a process did between its birth and its death are its calls. -/
theorem Stage.run_whole {born died : τ} {acts : List (Act τ φ μ)} {c : Calls τ φ}
    (h : ∀ a ∈ acts, a.isInner = true) (hmarks : acts.filterMap Act.mark = c.marks) :
    absent.run (.born born :: acts ++ [.died died]) = some (gone born c died) := by
  rw [List.cons_append, Stage.run_cons]
  show (alive born Calls.Reading.start).run (acts ++ _) = _
  rw [Stage.run_append, Stage.run_inner h, hmarks, Calls.run_marks_start]
  rfl

/-- Nothing is done before a birth. -/
theorem Stage.run_absent {acts : List (Act τ φ μ)} (h : ∀ a ∈ acts, a.isInner = true) :
    (∃ s, absent.run acts = some s) ↔ acts = [] := by
  constructor
  · rintro ⟨s, hrun⟩
    cases acts with
    | nil => rfl
    | cons a acts =>
      have hinner := h a List.mem_cons_self
      cases a with
      | born t | died t => exact absurd hinner Bool.false_ne_true
      | enter t f => cases hrun
      | leave t => cases hrun
      | note m => cases hrun
  · rintro rfl
    exact ⟨_, rfl⟩

/-- **It makes sense exactly when they are calls.** -/
theorem Stage.exists_run_whole_iff {born died : τ} {acts : List (Act τ φ μ)}
    (h : ∀ a ∈ acts, a.isInner = true) :
    (∃ s, absent.run (.born born :: acts ++ [.died died]) = some s) ↔
      ∃ c : Calls τ φ, acts.filterMap Act.mark = c.marks := by
  constructor
  · rintro ⟨s, hrun⟩
    rw [List.cons_append, Stage.run_cons] at hrun
    have hrun : (alive born Calls.Reading.start).run (acts ++ [.died died]) = some s := hrun
    rw [Stage.run_append, Stage.run_inner h] at hrun
    obtain ⟨s₁, hinner, hdied⟩ := Option.bind_eq_some_iff.mp hrun
    obtain ⟨r, hr, rfl⟩ := Option.map_eq_some_iff.mp hinner
    obtain ⟨outer, calls⟩ := r
    cases outer with
    | nil => exact ⟨calls, Calls.Reading.run_start_iff.mp hr⟩
    | cons o outer => cases hdied
  · rintro ⟨c, hc⟩
    exact ⟨_, Stage.run_whole h hc⟩

theorem isInner_actsOf (c : Calls τ φ) :
    ∀ a ∈ (actsOf c : List (Act τ φ μ)), a.isInner = true := by
  unfold actsOf
  induction c with
  | done => exact List.forall_mem_nil _
  | call name start stop inner next ihi ihn =>
    intro a ha
    simp only [Calls.render, List.mem_append, List.mem_singleton] at ha
    obtain ((rfl | ha) | rfl) | ha := ha
    · rfl
    · exact ihi a ha
    · rfl
    · exact ihn a ha

/-- Calls as acts are read back. -/
theorem Stage.run_calls (born died : τ) (c : Calls τ φ) :
    absent.run (.born born :: actsOf c ++ [(.died died : Act τ φ μ)]) = some (gone born c died) :=
  Stage.run_whole (isInner_actsOf c) (Calls.filterMap_render Act.mark c)

/-! ## All processes -/

section
variable [DecidableEq π]

/-- One act of one process. -/
def step (s : π → Stage τ φ) (e : π × Act τ φ μ) : Option (π → Stage τ φ) :=
  ((s e.1).step e.2).map (Function.update s e.1)

/-- The acts of all processes, one after the other. -/
def run (s : π → Stage τ φ) (es : List (π × Act τ φ μ)) : Option (π → Stage τ φ) :=
  es.foldlM step s

theorem run_cons (s : π → Stage τ φ) (e : π × Act τ φ μ) (es : List (π × Act τ φ μ)) :
    run s (e :: es) = (step s e).bind fun s' => run s' es := rfl

/-- The acts of a process. -/
def actsBy (p : π) (es : List (π × Act τ φ μ)) : List (Act τ φ μ) :=
  (es.filter fun e => e.1 = p).map Prod.snd

/-- The acts of a process are those of what is about it. -/
theorem actsBy_filterMap {ι : Type} {f : ι → Option (π × Act τ φ μ)} {p : π} {P : ι → Prop}
    [DecidablePred P] {l : List ι} (h : ∀ x ∈ l, ∀ e ∈ f x, e.1 = p ↔ P x) :
    actsBy p (l.filterMap f) = ((l.filter fun x => P x).filterMap f).map Prod.snd := by
  unfold actsBy
  induction l with
  | nil => rfl
  | cons x l ih =>
    have hrest := ih fun y hy => h y (List.mem_cons_of_mem _ hy)
    cases hf : f x with
    | none =>
      rw [List.filterMap_cons_none hf, hrest, List.filter_cons]
      split
      · rw [List.filterMap_cons_none hf]
      · rfl
    | some e =>
      have hiff := h x List.mem_cons_self e hf
      rw [List.filterMap_cons_some hf, List.filter_cons, List.filter_cons]
      by_cases hP : P x
      · rw [if_pos (by simpa using hiff.mpr hP), if_pos (by simpa using hP),
          List.filterMap_cons_some hf, List.map_cons, List.map_cons, hrest]
      · rw [if_neg (by simpa using mt hiff.mp hP), if_neg (by simpa using hP), hrest]

theorem actsBy_append (p : π) (es es' : List (π × Act τ φ μ)) :
    actsBy p (es ++ es') = actsBy p es ++ actsBy p es' := by
  rw [actsBy, List.filter_append, List.map_append]
  rfl

/-- When each of some processes acts once. -/
theorem actsBy_once {ι : Type} {f : ι → π} {l : List ι} (h : (l.map f).Nodup) (p : π)
    (a : Act τ φ μ) : actsBy p (l.map fun x => (f x, a)) = if p ∈ l.map f then [a] else [] := by
  induction l with
  | nil => rfl
  | cons x l ih =>
    rw [List.map_cons, List.nodup_cons] at h
    have hsplit : actsBy p ((x :: l).map fun x => (f x, a)) =
        actsBy p [(f x, a)] ++ actsBy p (l.map fun x => (f x, a)) := actsBy_append p [(f x, a)] _
    rw [hsplit, ih h.2, List.map_cons]
    by_cases hx : f x = p
    · subst hx
      simp [actsBy, h.1]
    · simp [actsBy, hx, Ne.symm hx]

/-- **Each process runs by itself.** -/
theorem run_iff {s s' : π → Stage τ φ} {es : List (π × Act τ φ μ)} :
    run s es = some s' ↔ ∀ p, (s p).run (actsBy p es) = some (s' p) := by
  induction es generalizing s with
  | nil =>
    show some s = some s' ↔ ∀ p, some (s p) = some (s' p)
    simp only [Option.some.injEq]
    exact funext_iff
  | cons e es ih =>
    obtain ⟨q, a⟩ := e
    have hown : actsBy q ((q, a) :: es) = a :: actsBy q es := by simp [actsBy]
    have hother : ∀ p, p ≠ q → actsBy p ((q, a) :: es) = actsBy p es := by
      intro p hp
      simp [actsBy, Ne.symm hp]
    rw [run_cons, step]
    cases hstep : (s q).step a with
    | none =>
      constructor
      · intro h
        cases h
      · intro h
        have hq := h q
        rw [hown, Stage.run_cons, hstep] at hq
        cases hq
    | some t =>
      rw [Option.map_some, Option.bind_some, ih]
      refine forall_congr' fun p => ?_
      by_cases hp : p = q
      · subst hp
        rw [hown, Stage.run_cons, hstep, Function.update_self, Option.bind_some]
      · rw [hother p hp, Function.update_of_ne hp]

/-- What is done to one process alone. -/
theorem exists_run_iff {s : π → Stage τ φ} {es : List (π × Act τ φ μ)} :
    (∃ s', run s es = some s') ↔ ∀ p, ∃ t, (s p).run (actsBy p es) = some t := by
  constructor
  · rintro ⟨s', h⟩ p
    exact ⟨s' p, run_iff.mp h p⟩
  · intro h
    exact ⟨fun p => (h p).choose, run_iff.mpr fun p => (h p).choose_spec⟩

end

/-! ## In a trace -/

/-- How the acts of processes are written: the container of each, under its parent, with one type of
    state; calls are pushed under their value. -/
structure Cast (π τ φ μ ν σ : Type) where
  aliasOf : π → ν
  nameOf : π → ν
  type : ν
  parent : π → ν
  state : ν
  value : φ → ν
  time : τ → σ
  note : π → μ → Line ν σ

namespace Cast

variable (k : Cast π τ φ μ ν σ)

/-- The line of an act. -/
def line : π × Act τ φ μ → Line ν σ
  | (p, .born t) => .create (k.time t) (k.aliasOf p) k.type (k.parent p) (k.nameOf p)
  | (p, .enter t f) => .push (k.time t) (k.aliasOf p) k.state (k.value f)
  | (p, .leave t) => .pop (k.time t) (k.aliasOf p) k.state
  | (p, .note m) => k.note p m
  | (p, .died t) => .destroy (k.time t) k.type (k.aliasOf p)

section
variable [DecidableEq ν] (w : World ν σ)

/-- What a reader knows of a process. -/
def life (types : Types ν) (p : π) : Stage τ φ → Life ν σ
  | .absent => .absent
  | .alive born reading => .alive ⟨k.type, k.parent p, k.nameOf p, k.time born,
      reading.map k.time fun f => types.nameOf k.state (k.value f)⟩
  | .gone born calls died => .gone ⟨k.type, k.parent p, k.nameOf p, k.time born,
      [], calls.map k.time fun f => types.nameOf k.state (k.value f)⟩ (k.time died)

/-- A world with the processes in it. -/
noncomputable def put (s : π → Stage τ φ) : World ν σ :=
  { w with life := Function.extend k.aliasOf (fun p => k.life w.types p (s p)) w.life }

/-- What the processes rest on. -/
def Above (c : ν) : Prop := ∃ p, c = k.parent p

/-- The world has room for the processes: their containers are apart, and so is what they rest
    on, which is of the declared types. -/
structure Fits : Prop where
  inj : Function.Injective k.aliasOf
  top : ∀ p, k.aliasOf p ≠ w.top
  parent : ∀ p q, k.aliasOf p ≠ k.parent q
  under : ∀ p, ∃ c ∈ w.types.containers, c.1 = k.type ∧ w.typeOf (k.parent p) = some c.2
  state : (k.state, k.type) ∈ w.types.states
  note : ∀ p m, (k.note p m).container = some (k.aliasOf p) ∧ (k.note p m).Inner w.types k.type ∧
    (k.note p m).mark w.types = none ∧ (k.note p m).Framed w k.Above

variable {k w}

/-- Before anything happens, nobody is in the trace. -/
theorem put_absent (h : Function.Injective k.aliasOf)
    (habsent : ∀ p, w.life (k.aliasOf p) = .absent) : k.put w (fun _ => .absent) = w := by
  have hlife : Function.extend k.aliasOf (fun _ => Life.absent) w.life = w.life := by
    funext c
    by_cases hc : ∃ p, k.aliasOf p = c
    · obtain ⟨p, rfl⟩ := hc
      rw [h.extend_apply, habsent]
    · rw [Function.extend_apply' _ _ _ hc]
  show { w with life := _ } = w
  rw [show (fun p => k.life w.types p .absent) = fun _ => Life.absent from rfl, hlife]

theorem life_put (h : Function.Injective k.aliasOf) (s : π → Stage τ φ) (p : π) :
    (k.put w s).life (k.aliasOf p) = k.life w.types p (s p) := by
  simp only [put, h.extend_apply]

theorem life_put_of_ne {c : ν} (hc : ¬ ∃ p, k.aliasOf p = c) (s : π → Stage τ φ) :
    (k.put w s).life c = w.life c := by
  simp only [put, Function.extend_apply' _ _ _ hc]

/-- One process further. -/
theorem put_update [DecidableEq π] (h : Function.Injective k.aliasOf) (s : π → Stage τ φ) (p : π)
    (t : Stage τ φ) : k.put w (Function.update s p t) =
      { k.put w s with
        life := Function.update (k.put w s).life (k.aliasOf p) (k.life w.types p t) } := by
  have hlife : (k.put w (Function.update s p t)).life =
      Function.update (k.put w s).life (k.aliasOf p) (k.life w.types p t) := by
    funext c
    by_cases hc : ∃ q, k.aliasOf q = c
    · obtain ⟨q, rfl⟩ := hc
      rw [life_put h]
      by_cases hq : q = p
      · subst hq
        rw [Function.update_self, Function.update_self]
      · rw [Function.update_of_ne hq, Function.update_of_ne fun heq => hq (h heq), life_put h]
    · have hne : c ≠ k.aliasOf p := fun heq => hc ⟨p, heq.symm⟩
      rw [life_put_of_ne hc, Function.update_of_ne hne, life_put_of_ne hc]
  rw [← hlife]
  rfl

/-- What the processes rest on does not change. -/
theorem typeOf_put (h : k.Fits w) (s : π → Stage τ φ) (q : π) :
    (k.put w s).typeOf (k.parent q) = w.typeOf (k.parent q) := by
  have hc : ¬ ∃ p, k.aliasOf p = k.parent q := fun ⟨p, hp⟩ => h.parent p q hp
  rw [World.typeOf, World.typeOf, life_put_of_ne hc]
  rfl

/-- A line is about the process that acts, -/
theorem line_container (h : k.Fits w) (e : π × Act τ φ μ) :
    (k.line e).container = some (k.aliasOf e.1) := by
  obtain ⟨p, a⟩ := e
  cases a with
  | note m => exact (h.note p m).1
  | _ => rfl

/-- and rests on its parent. -/
theorem line_framed (h : k.Fits w) (e : π × Act τ φ μ) : (k.line e).Framed w k.Above := by
  obtain ⟨p, a⟩ := e
  cases a with
  | note m => exact (h.note p m).2.2.2
  | born t => exact ⟨h.top p, ⟨p, rfl⟩, h.under p⟩
  | _ => trivial

/-- **A line does to a container what the act does to the process.** -/
theorem life_step (h : k.Fits w) (p : π) (s : Stage τ φ) (a : Act τ φ μ) :
    (k.life w.types p s).step w.types (k.line (p, a)) =
      (s.step a).map (k.life w.types p) := by
  have hstate := h.state
  cases s with
  | absent =>
    cases a with
    | note m => exact Line.Inner.step_eq_none (h.note p m).2.1 fun box heq => by cases heq
    | _ => rfl
  | gone born calls died =>
    cases a with
    | note m => exact Line.Inner.step_eq_none (h.note p m).2.1 fun box heq => by cases heq
    | _ => rfl
  | alive born r =>
    cases a with
    | born t => rfl
    | enter t f =>
      simp only [life, line, Life.step, hstate, if_true]
      rfl
    | leave t =>
      have hmap := Calls.Reading.step_map k.time (fun f => w.types.nameOf k.state (k.value f)) r
        (.leave t)
      simp only [life, line, Life.step, hstate, if_true, Stage.step]
      rw [show (Calls.Mark.leave (k.time t) : Calls.Mark σ ν) = Calls.Mark.map k.time
        (fun f => w.types.nameOf k.state (k.value f)) (.leave t) from rfl, hmap, Option.map_map,
        Option.map_map]
      rfl
    | died t =>
      obtain ⟨outer, calls⟩ := r
      cases outer <;> simp [life, line, Life.step, Stage.step, Calls.Reading.map]
    | note m =>
      obtain ⟨-, hinner, hmark, -⟩ := h.note p m
      have hrun := @Life.run_inner _ _ _ w.types ⟨k.type, k.parent p, k.nameOf p, k.time born,
        r.map k.time fun f => w.types.nameOf k.state (k.value f)⟩ [k.note p m] (by simpa using hinner)
      rw [List.filterMap_cons, hmark] at hrun
      simpa [Life.run, Calls.Reading.run, life, line, Stage.step] using hrun

/-- **One act is one line.** -/
theorem step_put [DecidableEq π] (h : k.Fits w) (s : π → Stage τ φ) (e : π × Act τ φ μ) :
    (k.put w s).step (k.line e) = (Actors.step s e).map (k.put w) := by
  have hadmits : (k.put w s).Admits (k.line e) := by
    refine Line.Framed.admits (P := k.Above) ?_
    refine (line_framed h e).congr rfl rfl ?_
    rintro c ⟨p, rfl⟩
    exact typeOf_put h s p
  have hstands : (k.put w s).Stands (k.aliasOf e.1) := by
    obtain ⟨c, -, -, htype⟩ := h.under e.1
    unfold World.Stands
    rw [life_put h.inj]
    cases s e.1 with
    | alive born r =>
      show ((k.put w s).typeOf (k.parent e.1)).isSome = true
      rw [typeOf_put h, htype]
      rfl
    | _ => trivial
  rw [World.step, line_container h]
  show (if _ then _ else _) = _
  have hstep := life_step h e.1 (s e.1) e.2
  rw [if_pos ⟨hstands, hadmits⟩, life_put h.inj, show (k.put w s).types = w.types from rfl, hstep,
    Actors.step, Option.map_map, Option.map_map]
  refine congrArg (Option.map · _) (funext fun t => ?_)
  exact (put_update h.inj s e.1 t).symm

/-- **The reader accepts exactly the runs that make sense**, and reads what the processes did. -/
theorem run_put [DecidableEq π] (h : k.Fits w) (s : π → Stage τ φ) (es : List (π × Act τ φ μ)) :
    (k.put w s).run (es.map k.line) = (Actors.run s es).map (k.put w) := by
  induction es generalizing s with
  | nil => rfl
  | cons e es ih =>
    rw [List.map_cons, World.run_cons, step_put h, Actors.run_cons]
    cases Actors.step s e with
    | none => rfl
    | some s' => exact ih s'

/-! ### Under one root -/

theorem put_withRoot {root : ν} (h : Function.Injective k.aliasOf)
    (hne : ∀ p, k.aliasOf p ≠ root) (type name : ν) (born : σ) (s : π → Stage τ φ) :
    k.put (w.withRoot root type name born) s = (k.put w s).withRoot root type name born := by
  have hlife : (k.put (w.withRoot root type name born) s).life =
      ((k.put w s).withRoot root type name born).life := by
    funext c
    by_cases hc : ∃ p, k.aliasOf p = c
    · obtain ⟨p, rfl⟩ := hc
      rw [life_put h, World.life_withRoot _ (hne p), life_put h]
      rfl
    · rw [life_put_of_ne hc]
      by_cases hcp : c = root
      · subst hcp
        rw [World.life_root, World.life_root]
        rfl
      · rw [World.life_withRoot _ hcp, World.life_withRoot _ hcp, life_put_of_ne hc]
  show (⟨w.top, w.types, _⟩ : World ν σ) = ⟨w.top, w.types, _⟩
  exact congrArg (World.mk w.top w.types) hlife

/-- **From the first act to the end of the root**, when nobody was there before. -/
theorem run_rooted [DecidableEq π] {root : ν} (hroot : ∀ p, k.parent p = root) {type name : ν}
    {born : σ} (h : k.Fits (w.withRoot root type name born))
    (habsent : ∀ p, w.life (k.aliasOf p) = .absent) (died : σ) (es : List (π × Act τ φ μ)) :
    (w.withRoot root type name born).run (es.map k.line ++ [.destroy died type root]) =
      (Actors.run (fun _ => .absent) es).map fun s =>
        (k.put w s).withoutRoot root type name born died := by
  have hne : ∀ p, k.aliasOf p ≠ root := fun p => hroot p ▸ h.parent p p
  have hput := run_put h (fun _ => .absent) es
  rw [put_absent h.inj fun p => by rw [World.life_withRoot _ (hne p), habsent]] at hput
  rw [World.run_append, hput]
  cases Actors.run (fun _ => .absent) es with
  | none => rfl
  | some s =>
    rw [Option.map_some, Option.map_some, Option.bind_some, put_withRoot h.inj hne,
      World.run_cons, World.destroy_root (World.life_root _ root type name born),
      Option.bind_some, World.withoutRoot_withRoot]
    rfl

/-- What is read of a process is not touched by the end of the root. -/
theorem life_withoutRoot {root : ν} (h : Function.Injective k.aliasOf) {p : π}
    (hp : k.aliasOf p ≠ root) (type name : ν) (born died : σ) (s : π → Stage τ φ) :
    ((k.put w s).withoutRoot root type name born died).life (k.aliasOf p) =
      k.life w.types p (s p) := by
  rw [← life_put h]
  exact Function.update_of_ne hp _ _

end

end Cast

end Actors

import Mathlib
import Akypuera.Lib.Nesting

/-!
# Calls, and the lines that show them

`Calls` is what one process does: calls one after the other, each with the calls it makes in turn.
`render` writes it down, with something for each entry and each return, and `Reading` gets it back
from the entries and returns alone. **What is rendered is read back** (`run_render`), so two
renderings of the same calls tell the same story; the lemmas on `render` say how a rendering is
taken through a map, through a translation of each entry and return, and through a filter of names.

Nothing here is about a particular trace format.
-/

set_option autoImplicit false

/-- Calls one after the other: each has a name, a start and an end, and inner calls. -/
inductive Calls (τ ν : Type) where
  | done
  | call (name : ν) (start stop : τ) (inner next : Calls τ ν)
  deriving DecidableEq

namespace Calls

variable {τ σ ν μ α β : Type}

def append : Calls τ ν → Calls τ ν → Calls τ ν
  | done, d => d
  | call name start stop inner next, d => call name start stop inner (next.append d)

@[simp] theorem done_append (c : Calls τ ν) : append done c = c := rfl

@[simp] theorem append_done (c : Calls τ ν) : c.append done = c := by
  induction c with
  | done => rfl
  | call name start stop inner next _ ih => exact congrArg (call name start stop inner) ih

theorem append_assoc (c d e : Calls τ ν) : (c.append d).append e = c.append (d.append e) := by
  induction c with
  | done => rfl
  | call name start stop inner next _ ih => exact congrArg (call name start stop inner) ih

/-- Calls that make no calls. -/
def flat : List (ν × τ × τ) → Calls τ ν
  | [] => done
  | (name, start, stop) :: l => call name start stop done (flat l)

theorem flat_append (l l' : List (ν × τ × τ)) : flat (l ++ l') = (flat l).append (flat l') := by
  induction l with
  | nil => rfl
  | cons x l ih => exact congrArg (call x.1 x.2.1 x.2.2 done) ih

/-- Other times and names for the same calls. -/
def map (f : τ → σ) (g : ν → μ) : Calls τ ν → Calls σ μ
  | done => done
  | call name start stop inner next =>
      call (g name) (f start) (f stop) (inner.map f g) (next.map f g)

theorem map_append (f : τ → σ) (g : ν → μ) (c d : Calls τ ν) :
    (c.append d).map f g = (c.map f g).append (d.map f g) := by
  induction c with
  | done => rfl
  | call name start stop inner next _ ih =>
    exact congrArg (call (g name) (f start) (f stop) (inner.map f g)) ih

theorem map_id (c : Calls τ ν) : c.map (fun t => t) (fun name => name) = c := by
  induction c with
  | done => rfl
  | call name start stop inner next ihi ihn => rw [map, ihi, ihn]

/-- The calls with a name that is kept; what a call that is left out called moves up. -/
def keep (p : ν → Bool) : Calls τ ν → Calls τ ν
  | done => done
  | call name start stop inner next =>
      if p name then call name start stop (inner.keep p) (next.keep p)
      else (inner.keep p).append (next.keep p)

/-- The names, in the order the calls start. -/
def names : Calls τ ν → List ν
  | done => []
  | call name _ _ inner next => name :: (inner.names ++ next.names)

theorem names_flat (l : List (ν × τ × τ)) : (flat l).names = l.map Prod.fst := by
  induction l with
  | nil => rfl
  | cons x l ih => exact congrArg (x.1 :: ·) ih

/-! ## Rendering -/

/-- Something for each entry and each return, in the order in which they happen. -/
def render (enter leave : ν → τ → List α) : Calls τ ν → List α
  | done => []
  | call name start stop inner next =>
      enter name start ++ inner.render enter leave ++ leave name stop ++ next.render enter leave

variable {enter leave : ν → τ → List α}

@[simp] theorem render_done : (done : Calls τ ν).render enter leave = [] := rfl

theorem render_append (c d : Calls τ ν) :
    (c.append d).render enter leave = c.render enter leave ++ d.render enter leave := by
  induction c with
  | done => rfl
  | call name start stop inner next _ ih => simp only [append, render, ih, List.append_assoc]

theorem render_map (f : τ → σ) (g : ν → μ) (enter leave : μ → σ → List α) (c : Calls τ ν) :
    (c.map f g).render enter leave =
      c.render (fun name t => enter (g name) (f t)) fun name t => leave (g name) (f t) := by
  induction c with
  | done => rfl
  | call name start stop inner next ihi ihn => simp only [map, render, ihi, ihn]

/-- **A translation of what is written for each entry and return.** -/
theorem filterMap_render (h : α → Option β) (c : Calls τ ν) :
    (c.render enter leave).filterMap h = c.render (fun name t => (enter name t).filterMap h)
      fun name t => (leave name t).filterMap h := by
  induction c with
  | done => rfl
  | call name start stop inner next ihi ihn =>
    simp only [render, List.filterMap_append, ihi, ihn]

/-- Nothing written for any. -/
theorem render_nil (c : Calls τ ν) :
    c.render (fun _ _ => ([] : List α)) (fun _ _ => []) = [] := by
  induction c with
  | done => rfl
  | call name start stop inner next ihi ihn => simp only [render, ihi, ihn, List.append_nil]

/-- **Writing nothing for some names** leaves out their calls. -/
theorem render_keep (p : ν → Bool) (c : Calls τ ν) :
    (c.keep p).render enter leave = c.render (fun name t => if p name then enter name t else [])
      fun name t => if p name then leave name t else [] := by
  induction c with
  | done => rfl
  | call name start stop inner next ihi ihn =>
    cases hp : p name with
    | true => simp only [keep, render, hp, if_true, ihi, ihn]
    | false =>
      simp only [keep, render, hp, Bool.false_eq_true, if_false, render_append, ihi, ihn,
        List.nil_append, List.append_nil]

theorem render_congr {enter' leave' : ν → τ → List α} {c : Calls τ ν}
    (h : ∀ name ∈ c.names, ∀ t, enter name t = enter' name t ∧ leave name t = leave' name t) :
    c.render enter leave = c.render enter' leave' := by
  induction c with
  | done => rfl
  | call name start stop inner next ihi ihn =>
    have hhere := h name List.mem_cons_self
    rw [render, render, (hhere start).1, (hhere stop).2,
      ihi fun n hn => h n (List.mem_cons_of_mem _ (List.mem_append_left _ hn)),
      ihn fun n hn => h n (List.mem_cons_of_mem _ (List.mem_append_right _ hn))]

/-! ## Reading -/

/-- What a reader sees of a process: calls that start, and calls that end. -/
inductive Mark (τ ν : Type) where
  | enter (time : τ) (name : ν)
  | leave (time : τ)
  deriving DecidableEq

/-- When it is seen. -/
def Mark.time : Mark τ ν → τ
  | .enter time _ | .leave time => time

/-- The same mark with another time and name. -/
def Mark.map (f : τ → σ) (g : ν → μ) : Mark τ ν → Mark σ μ
  | .enter time name => .enter (f time) (g name)
  | .leave time => .leave (f time)

/-- The marks of calls. -/
def marks (c : Calls τ ν) : List (Mark τ ν) :=
  c.render (fun name t => [.enter t name]) fun _ t => [.leave t]

/-- What was read so far: the calls that are open, innermost first, each with what came before it
    in the same call, and the calls that are over in the innermost one. -/
structure Reading (τ ν : Type) where
  outer : List (ν × τ × Calls τ ν)
  calls : Calls τ ν
  deriving DecidableEq

namespace Reading

/-- Before the first mark. -/
def start : Reading τ ν := ⟨[], done⟩

/-- One mark; a return without a call is no reading. -/
def step (r : Reading τ ν) : Mark τ ν → Option (Reading τ ν)
  | .enter time name => some ⟨(name, time, r.calls) :: r.outer, done⟩
  | .leave time =>
      match r.outer with
      | [] => none
      | (name, begun, before) :: outer =>
          some ⟨outer, before.append (call name begun time r.calls done)⟩

/-- Marks one after the other. -/
def run (r : Reading τ ν) (marks : List (Mark τ ν)) : Option (Reading τ ν) := marks.foldlM step r

theorem run_append (r : Reading τ ν) (l l' : List (Mark τ ν)) :
    r.run (l ++ l') = (r.run l).bind fun r' => r'.run l' := List.foldlM_append

/-- **What is rendered is read back**, after whatever was read before. -/
theorem run_marks (r : Reading τ ν) (c : Calls τ ν) :
    r.run c.marks = some ⟨r.outer, r.calls.append c⟩ := by
  unfold marks
  induction c generalizing r with
  | done => exact congrArg some (by rw [append_done])
  | call name begun stop inner next ihi ihn =>
    have henter : r.run [.enter begun name] = some ⟨(name, begun, r.calls) :: r.outer, done⟩ := rfl
    have hleave : ∀ calls, (⟨(name, begun, r.calls) :: r.outer, calls⟩ : Reading τ ν).run
        [.leave stop] = some ⟨r.outer, r.calls.append (call name begun stop calls done)⟩ :=
      fun _ => rfl
    rw [render, run_append, run_append, run_append, henter, Option.bind_some, ihi,
      Option.bind_some, hleave, Option.bind_some, ihn, append_assoc]
    rfl

end Reading

namespace Reading

/-- Other times and names for what was read. -/
def map (f : τ → σ) (g : ν → μ) (r : Reading τ ν) : Reading σ μ :=
  ⟨r.outer.map fun o => (g o.1, f o.2.1, o.2.2.map f g), r.calls.map f g⟩

/-- **Reading takes no notice of times and names.** -/
theorem step_map (f : τ → σ) (g : ν → μ) (r : Reading τ ν) (m : Mark τ ν) :
    (r.map f g).step (m.map f g) = (r.step m).map (map f g) := by
  cases m with
  | enter t name => rfl
  | leave t =>
    obtain ⟨outer, calls⟩ := r
    cases outer with
    | nil => rfl
    | cons o outer =>
      simp only [map, Mark.map, step, List.map_cons, Option.map_some, map_append]
      rfl

end Reading

theorem run_marks_start (c : Calls τ ν) : Reading.start.run c.marks = some ⟨[], c⟩ :=
  Reading.run_marks Reading.start c

/-! ## Times -/

/-- The times of entries and returns, in the order in which they happen. -/
def times (c : Calls τ ν) : List τ := c.render (fun _ t => [t]) fun _ t => [t]

theorem map_time_marks (c : Calls τ ν) : c.marks.map Mark.time = c.times := by
  rw [marks, ← List.filterMap_eq_map, filterMap_render]
  rfl

/-- What is written for a mark; a return is written without its name. -/
def Mark.write (enter : ν → τ → List α) (leave : τ → List α) : Mark τ ν → List α
  | .enter time name => enter name time
  | .leave time => leave time

namespace Reading

/-- What all that was read is rendered as. -/
def render (enter leave : ν → τ → List α) (r : Reading τ ν) : List α :=
  (r.outer.reverse.flatMap fun o => o.2.2.render enter leave ++ enter o.1 o.2.1) ++
    r.calls.render enter leave

variable {enter leave : ν → τ → List α}

/-- **An entry adds what is written for it**, -/
theorem render_enter (r : Reading τ ν) (name : ν) (t : τ) :
    (⟨(name, t, r.calls) :: r.outer, done⟩ : Reading τ ν).render enter leave =
      r.render enter leave ++ enter name t := by
  simp [render]

/-- **and so does a return.** -/
theorem render_leave (outer : List (ν × τ × Calls τ ν)) (name : ν) (start stop : τ)
    (before calls : Calls τ ν) :
    (⟨outer, before.append (call name start stop calls done)⟩ : Reading τ ν).render enter leave =
      (⟨(name, start, before) :: outer, calls⟩ : Reading τ ν).render enter leave ++
        leave name stop := by
  simp [render, Calls.render_append, Calls.render]

/-- The times of all that was read. -/
def times (r : Reading τ ν) : List τ :=
  (r.outer.reverse.flatMap fun o => o.2.2.times ++ [o.2.1]) ++ r.calls.times

/-- **Reading a mark adds what is written for it.** -/
theorem render_step (enter : ν → τ → List α) (leave : τ → List α) {r r' : Reading τ ν}
    {m : Mark τ ν} (h : r.step m = some r') :
    r'.render enter (fun _ => leave) = r.render enter (fun _ => leave) ++ m.write enter leave := by
  cases m with
  | enter t name =>
    cases h
    exact render_enter r name t
  | leave t =>
    obtain ⟨outer, calls⟩ := r
    cases outer with
    | nil => cases h
    | cons o outer =>
      cases h
      exact render_leave outer o.1 o.2.1 t o.2.2 calls

/-- **Reading keeps every time**, and their order. -/
theorem times_step {r r' : Reading τ ν} {m : Mark τ ν} (h : r.step m = some r') :
    r'.times = r.times ++ [m.time] := by
  cases m <;> exact render_step _ _ h

theorem marks_run {r r' : Reading τ ν} {ms : List (Mark τ ν)} (h : r.run ms = some r') :
    r'.render (fun name t => [Mark.enter t name]) (fun _ t => [.leave t]) =
      r.render (fun name t => [Mark.enter t name]) (fun _ t => [.leave t]) ++ ms := by
  induction ms generalizing r with
  | nil =>
    cases h
    exact (List.append_nil _).symm
  | cons m ms ih =>
    rw [run, List.foldlM_cons] at h
    obtain ⟨r₁, hstep, hrun⟩ := Option.bind_eq_some_iff.mp h
    have hone := render_step (fun name t => [Mark.enter t name]) (fun t => [.leave t]) hstep
    rw [ih hrun, hone, List.append_assoc]
    cases m <;> rfl

/-- **What is read are the marks of calls**, and nothing else is. -/
theorem run_start_iff {ms : List (Mark τ ν)} {c : Calls τ ν} :
    start.run ms = some ⟨[], c⟩ ↔ ms = c.marks := by
  constructor
  · intro h
    exact (marks_run h).symm
  · rintro rfl
    exact run_marks_start c

end Reading

section
variable [Preorder τ]

/-- Every call ends after it starts, contains the calls it makes, and is over before the next. -/
def Timed : τ → τ → Calls τ ν → Prop
  | _, _, done => True
  | lo, hi, call _ start stop inner next =>
      lo ≤ start ∧ start ≤ stop ∧ stop ≤ hi ∧ Timed start stop inner ∧ Timed stop hi next

/-- **Marks in the order of their times are marks of calls in time.** -/
theorem timed_of_pairwise {c : Calls τ ν} {lo hi : τ}
    (h : (lo :: (c.times ++ [hi])).Pairwise (· ≤ ·)) : c.Timed lo hi := by
  unfold times at h
  induction c generalizing lo hi with
  | done => trivial
  | call name start stop inner next ihi ihn =>
    simp only [render, List.append_assoc, List.cons_append, List.nil_append] at h
    obtain ⟨hlo, hstart, hrest⟩ := by simpa only [List.pairwise_cons] using h
    obtain ⟨hinner, hnext, hbefore⟩ := List.pairwise_append.mp hrest
    have hstop := (List.pairwise_cons.mp hnext).1
    refine ⟨hlo start (by simp), hstart stop (by simp), hstop hi (by simp), ihi ?_, ihn hnext⟩
    refine List.pairwise_cons.mpr ⟨fun t ht => ?_, List.pairwise_append.mpr
      ⟨hinner, List.pairwise_singleton _ _, fun t ht t' ht' => ?_⟩⟩
    · rcases List.mem_append.mp ht with ht | ht
      · exact hstart t (List.mem_append_left _ ht)
      · exact List.mem_singleton.mp ht ▸ hstart stop (by simp)
    · exact List.mem_singleton.mp ht' ▸ hbefore t ht stop (by simp)

/-- **Calls are in time from the first to the last** of times in order that theirs are among. -/
theorem timed_of_sublist {c : Calls τ ν} {ts : List τ} {lo hi : τ} (hsub : c.times.Sublist ts)
    (h : ts.Pairwise (· ≤ ·)) (hlo : ts.head? = some lo) (hhi : ts.getLast? = some hi) :
    c.Timed lo hi := by
  have hleast : ∀ t ∈ ts, lo ≤ t := by
    obtain ⟨rest, rfl⟩ := List.head?_eq_some_iff.mp hlo
    intro t ht
    rcases List.mem_cons.mp ht with rfl | ht
    · exact le_rfl
    · exact List.rel_of_pairwise_cons h ht
  have hgreatest : ∀ t ∈ ts, t ≤ hi := by
    obtain ⟨init, rfl⟩ := List.getLast?_eq_some_iff.mp hhi
    intro t ht
    rcases List.mem_append.mp ht with ht | ht
    · exact (List.pairwise_append.mp h).2.2 t ht hi (List.mem_singleton_self _)
    · exact (List.mem_singleton.mp ht).le
  have hlohi : lo ≤ hi := hleast hi (List.mem_of_getLast? hhi)
  refine timed_of_pairwise (List.pairwise_cons.mpr ⟨fun t ht => ?_, List.pairwise_append.mpr
    ⟨h.sublist hsub, List.pairwise_singleton _ _, fun t ht t' ht' => ?_⟩⟩)
  · rcases List.mem_append.mp ht with ht | ht
    · exact hleast t (hsub.subset ht)
    · exact List.mem_singleton.mp ht ▸ hlohi
  · exact List.mem_singleton.mp ht' ▸ hgreatest t (hsub.subset ht)

end

/-! ## Marks that are nested -/

section
variable {ι : Type} (enter leave : ν → τ → List α) (name : ι → ν) (time : ι → τ)

/-- What is written for an opening or a closing. -/
def item (x : ι × Nesting.Mark) : List α :=
  x.2.pick (enter (name x.1) (time x.1)) (leave (name x.1) (time x.1))

/-- **Closings of what they name** go on with a reading. -/
theorem exists_reading {st : List ι} {l : List (ι × Nesting.Mark)}
    (h : ∀ x ∈ Nesting.closings st l, ∃ i, x.2 = some i ∧ name i = name x.1) (r : Reading τ ν)
    (hr : r.outer.map Prod.fst = st.map name) :
    ∃ r' : Reading τ ν, r'.outer.map Prod.fst = (Nesting.leftOpen st l).map name ∧
      r'.render enter leave =
        r.render enter leave ++ l.flatMap (item enter leave name time) := by
  induction l generalizing st r with
  | nil => exact ⟨r, hr, (List.append_nil _).symm⟩
  | cons x l ih =>
    obtain ⟨j, mark⟩ := x
    cases mark with
    | opens =>
      obtain ⟨r', hopen, hrender⟩ := @ih (j :: st) h ⟨(name j, time j, r.calls) :: r.outer, done⟩
        (congrArg (name j :: ·) hr)
      refine ⟨r', hopen, ?_⟩
      rw [hrender, Reading.render_enter, List.append_assoc, List.flatMap_cons]
      rfl
    | closes =>
      cases st with
      | nil =>
        obtain ⟨i, hi, -⟩ := h (j, none) (by simp [Nesting.closings])
        cases hi
      | cons i st =>
        obtain ⟨i', hi, hname⟩ := h (j, some i) (by simp [Nesting.closings])
        cases hi
        obtain ⟨outer, calls⟩ := r
        cases outer with
        | nil => cases hr
        | cons o outer =>
          obtain ⟨hinner, houter⟩ := List.cons.inj hr
          obtain ⟨r', hopen, hrender⟩ := @ih st (fun x hx => h x (by simp [Nesting.closings, hx]))
            ⟨outer, o.2.2.append (call o.1 o.2.1 (time j) calls done)⟩ houter
          have hleave : leave o.1 (time j) = item enter leave name time (j, .closes) := by
            rw [hinner, hname]
            rfl
          refine ⟨r', hopen, ?_⟩
          rw [hrender, Reading.render_leave, List.append_assoc, List.flatMap_cons, hleave]

/-- **Nested openings and closings are those of calls.** -/
theorem exists_calls {l : List (ι × Nesting.Mark)}
    (h : ∀ x ∈ Nesting.closings [] l, ∃ i, x.2 = some i ∧ name i = name x.1)
    (hopen : Nesting.leftOpen [] l = []) :
    ∃ c : Calls τ ν, c.render enter leave = l.flatMap (item enter leave name time) := by
  obtain ⟨r, hr, hrender⟩ := exists_reading enter leave name time h Reading.start rfl
  obtain ⟨outer, calls⟩ := r
  rw [hopen, List.map_nil, List.map_eq_nil_iff] at hr
  have hnone : outer = [] := hr
  subst hnone
  exact ⟨calls, hrender⟩

end

end Calls

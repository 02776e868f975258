import Akypuera.System.Requests

/-!
# Phantom receives

The library records a receive when a wait is given a variable it has noted an `MPI_Irecv`
for. That the variable *still holds* that receive is another matter: a test may have completed
it, and the library does not look. So **a receive is recorded for each message, and for nothing
else, in every run in which the noted variables that waits are given hold receives from real
processes** (`Op.Clear`), and no `MPI_Recv` names `MPI_PROC_NULL`.

Receives are numbered in the order they are posted, so that "at most one record for each
message" is that the numbers recorded in a run are distinct.
-/

set_option autoImplicit false

namespace Akypuera
namespace System

open Code Converter Tracer

/-- The messages from real processes whose receipt completes in a call, by the number of their
    receive, with their source. -/
def Op.received (st : Proc) : Op → List (Nat × Int32)
  | .recv _ _ _ source | .exchange _ _ source => (source.map fun s => (st.receives, s)).toList
  | op => op.completes.filterMap st.real

/-- Those of them that the wrapper records. -/
def Op.named (mpi : Mpi) (st : Proc) : Op → List (Nat × Int32)
  | .recv _ _ _ source => (source.map fun s => (st.receives, s)).toList
  | op => (((op.looks mpi st).map Prod.fst).filter st.noted).filterMap st.real

/-- The source that is recorded for a message: `MPI_Recv` translates it. -/
def Op.shown : Op → Int32 → Int32
  | .recv comm _ _ _, source => akyTranslateRank comm source
  | _, source => source

/-- **No receive is taken for another**: an `MPI_Recv` names a real process, a noted variable
    that is given to a wait holds a receive from a real process, and `MPI_Waitany` does not
    index a noted variable with `MPI_UNDEFINED`. -/
def Op.Clear (mpi : Mpi) (st : Proc) : Op → Prop
  | .recv _ _ _ source => source ≠ none
  | .waitanyUndefined base => st.noted (base + mpi.undefined.toInt) = false
  | op => ∀ x ∈ op.looks mpi st, st.noted x.1 = true → (st.real x.1).isSome

/-! ## Numbers of receives -/

/-- A variable holds the receive with this number. -/
def Proc.Holds (st : Proc) (p : Ptr) (number : Nat) : Prop :=
  ∃ source, st.held p = .receive number source

/-- No two variables hold one receive, and no variable one that is still to be posted. -/
structure Proc.Numbered (st : Proc) : Prop where
  below : ∀ {p k}, st.Holds p k → k < st.receives
  unique : ∀ {p q k}, st.Holds p k → st.Holds q k → p = q

theorem numbered_init : Proc.init.Numbered :=
  ⟨fun ⟨_, h⟩ => absurd h (by simp [Proc.init]), fun ⟨_, h⟩ => absurd h (by simp [Proc.init])⟩

theorem held_of_real {st : Proc} {p : Ptr} {k : Nat} {source : Int32}
    (h : st.real p = some (k, source)) : st.held p = .receive k (some source) := by
  unfold Proc.real at h
  split at h
  · cases h
    assumption
  · exact absurd h (by simp)

theorem nodup_arrayOf (base : Int) (count : Nat) : (arrayOf base count).Nodup := by
  apply List.nodup_range.map
  intro i j h
  have h : base + (i : Int) = base + (j : Int) := h
  omega

/-- What a step does to the numbers: those it completes were there or are new, and are gone
    afterwards. -/
structure Renumbers (st st' : Proc) (completed : List Nat) : Prop where
  numbered : st'.Numbered
  grows : st.receives ≤ st'.receives
  known : ∀ k ∈ completed, (∃ p, st.Holds p k) ∨ st.receives ≤ k
  below : ∀ k ∈ completed, k < st'.receives
  gone : ∀ k ∈ completed, ∀ p, ¬ st'.Holds p k
  held : ∀ {p k}, st'.Holds p k → (∃ q, st.Holds q k) ∨ st.receives ≤ k
  nodup : completed.Nodup

section
variable {st st' : Proc} (hn : st.Numbered)
include hn

/-- A step that completes nothing and holds no more than before. -/
theorem renumbers_less (hr : st.receives = st'.receives)
    (hh : ∀ {p k}, st'.Holds p k → st.Holds p k) : Renumbers st st' [] where
  numbered :=
    ⟨fun h => hr ▸ hn.below (hh h), fun h h' => hn.unique (hh h) (hh h')⟩
  grows := le_of_eq hr
  known _ h := absurd h (by simp)
  below _ h := absurd h (by simp)
  gone _ h := absurd h (by simp)
  held h := Or.inl ⟨_, hh h⟩
  nodup := List.nodup_nil

/-- A request that is no receive is put into a variable. -/
theorem renumbers_post {request : Ptr} {h : Held} (hh : ∀ k source, h ≠ .receive k source)
    (hr : st.receives = st'.receives) (hp : st'.held = (st.post request h).held) :
    Renumbers st st' [] := by
  refine renumbers_less hn hr fun {p k} hk => ?_
  obtain ⟨source, hk⟩ := hk
  rw [hp] at hk
  by_cases hpr : p = request
  · subst hpr
    simp only [Proc.post, Function.update_self] at hk
    exact absurd hk (hh k source)
  · simp only [Proc.post, Function.update_of_ne hpr] at hk
    exact ⟨source, hk⟩

/-- A receive is put into a variable. -/
theorem renumbers_receive {request : Ptr} {source : Option Int32}
    (hr : st'.receives = st.receives + 1)
    (hp : st'.held = (st.post request (.receive st.receives source)).held) :
    Renumbers st st' [] := by
  have hold : ∀ {p k}, st'.Holds p k → (p = request ∧ k = st.receives) ∨
      (p ≠ request ∧ st.Holds p k) := by
    rintro p k ⟨source', hk⟩
    rw [hp] at hk
    by_cases hpr : p = request
    · subst hpr
      simp only [Proc.post, Function.update_self, Held.receive.injEq] at hk
      exact Or.inl ⟨rfl, hk.1.symm⟩
    · simp only [Proc.post, Function.update_of_ne hpr] at hk
      exact Or.inr ⟨hpr, source', hk⟩
  refine ⟨⟨fun h => ?_, fun h h' => ?_⟩, by omega, fun _ h => absurd h (by simp),
    fun _ h => absurd h (by simp), fun _ h => absurd h (by simp), fun h => ?_, List.nodup_nil⟩
  · rcases hold h with ⟨_, rfl⟩ | ⟨_, h⟩
    · omega
    · have := hn.below h
      omega
  · rcases hold h with ⟨rfl, rfl⟩ | ⟨_, h⟩ <;> rcases hold h' with ⟨rfl, heq⟩ | ⟨_, h'⟩
    · rfl
    · exact absurd (hn.below h') (by simp)
    · exact absurd (hn.below h) (by simp [heq])
    · exact hn.unique h h'
  · rcases hold h with ⟨_, rfl⟩ | ⟨_, h⟩
    · exact Or.inr (Nat.le_refl _)
    · exact Or.inl ⟨_, h⟩

/-- A blocking receive is posted and completes. -/
theorem renumbers_blocking (hr : st'.receives = st.receives + 1) (hp : st'.held = st.held)
    (source : Option Int32) :
    Renumbers st st' ((source.map fun s => (st.receives, s)).toList.map Prod.fst) := by
  have hh : ∀ {p k}, st'.Holds p k → st.Holds p k := by
    rintro p k ⟨source', hk⟩
    exact ⟨source', by rw [← hp]; exact hk⟩
  have hk : ∀ k ∈ (source.map fun s => (st.receives, s)).toList.map Prod.fst, k = st.receives := by
    cases source with
    | none => exact fun k h => absurd h (by simp)
    | some s => exact fun k h => by simpa using h
  refine ⟨⟨fun h => ?_, fun h h' => hn.unique (hh h) (hh h')⟩, by omega,
    fun k h => Or.inr (le_of_eq (hk k h).symm), fun k h => ?_, fun k h p hheld => ?_,
    fun h => Or.inl ⟨_, hh h⟩, ?_⟩
  · have := hn.below (hh h)
    omega
  · rw [hk k h]
    omega
  · have := hn.below (hh hheld)
    rw [hk k h] at this
    omega
  · cases source <;> simp

/-- Requests complete. -/
theorem renumbers_complete {ps : List Ptr} (hnd : ps.Nodup) (hr : st'.receives = st.receives)
    (hp : st'.held = (st.complete ps).held) :
    Renumbers st st' ((ps.filterMap st.real).map Prod.fst) := by
  have hh : ∀ {p k}, st'.Holds p k → p ∉ ps ∧ st.Holds p k := by
    rintro p k ⟨source, hk⟩
    rw [hp] at hk
    by_cases hm : p ∈ ps
    · simp [Proc.complete, hm] at hk
    · exact ⟨hm, source, by simpa [Proc.complete, hm] using hk⟩
  have hdone : ∀ k ∈ (ps.filterMap st.real).map Prod.fst, ∃ p ∈ ps, st.Holds p k := by
    intro k hk
    obtain ⟨⟨k, source⟩, hmem, rfl⟩ := List.mem_map.mp hk
    obtain ⟨p, hmem, hreal⟩ := List.mem_filterMap.mp hmem
    exact ⟨p, hmem, some source, held_of_real hreal⟩
  refine ⟨⟨fun h => hr ▸ hn.below (hh h).2, fun h h' => hn.unique (hh h).2 (hh h').2⟩,
    le_of_eq hr.symm, fun k hk => ?_, fun k hk => ?_, fun k hk q hq => ?_,
    fun h => Or.inl ⟨_, (hh h).2⟩, ?_⟩
  · obtain ⟨p, _, hholds⟩ := hdone k hk
    exact Or.inl ⟨p, hholds⟩
  · obtain ⟨p, _, hholds⟩ := hdone k hk
    rw [hr]
    exact hn.below hholds
  · obtain ⟨p, hmem, hholds⟩ := hdone k hk
    have heq := hn.unique hholds (hh hq).2
    exact (hh hq).1 (heq ▸ hmem)
  · rw [List.map_filterMap]
    apply hnd.filterMap
    intro p q k hk hk'
    obtain ⟨⟨k, source⟩, hreal, rfl⟩ := Option.map_eq_some_iff.mp hk
    obtain ⟨⟨k', source'⟩, hreal', heq⟩ := Option.map_eq_some_iff.mp hk'
    simp only at heq
    subst heq
    exact hn.unique ⟨_, held_of_real hreal⟩ ⟨_, held_of_real hreal'⟩

end

theorem Renumbers.trans {st st' st'' : Proc} (h : Renumbers st st' [])
    (h' : Renumbers st' st'' []) : Renumbers st st'' [] where
  numbered := h'.numbered
  grows := h.grows.trans h'.grows
  known _ hk := absurd hk (by simp)
  below _ hk := absurd hk (by simp)
  gone _ hk := absurd hk (by simp)
  held hp := by
    rcases h'.held hp with ⟨q, hq⟩ | hk
    · exact h.held hq
    · exact Or.inr (h.grows.trans hk)
  nodup := List.nodup_nil

theorem renumbers_start {st : Proc} (hn : st.Numbered) (started : List Started) :
    Renumbers st (started.foldl Proc.start st) [] := by
  induction started generalizing st with
  | nil => exact renumbers_less hn rfl fun h => h
  | cons s started ih =>
    have hone : Renumbers st (st.start s) [] := by
      cases s with
      | send dest request => exact renumbers_post hn (h := .other) (by simp) rfl rfl
      | receive source request => exact renumbers_receive hn rfl rfl
    exact hone.trans (ih hone.numbered)

/-- **Every operation renumbers**, and completes what it receives. -/
theorem renumbers_step {mpi : Mpi} {st : Proc} (hn : st.Numbered) (op : Op) :
    Renumbers st (op.step mpi st) ((op.received st).map Prod.fst) := by
  cases op with
  | send kind s request =>
    cases kind with
    | isend => exact renumbers_post hn (h := .isend st.sends) (by simp) rfl rfl
    | ibsend | irsend | issend => exact renumbers_post hn (h := .other) (by simp) rfl rfl
    | bsend | rsend | send | ssend => exact renumbers_less hn rfl fun h => h
  | recv comm count tsize source =>
    have hone : Renumbers st st.receive _ :=
      renumbers_blocking hn (show st.receive.receives = _ from rfl) rfl source
    exact hone
  | irecv count tsize source request => exact renumbers_receive hn rfl rfl
  | exchange kind dest source =>
    have hone : Renumbers st st.receive _ :=
      renumbers_blocking hn (show st.receive.receives = _ from rfl) rfl source
    exact hone
  | start kind started => exact renumbers_start hn started
  | wait request blank => exact renumbers_complete hn (by simp [Op.completes]) rfl rfl
  | waitall base count blank => exact renumbers_complete hn (nodup_arrayOf base count) rfl rfl
  | waitany base index blank => exact renumbers_complete hn (by simp [Op.completes]) rfl rfl
  | waitanyUndefined base => exact renumbers_complete hn (by simp [Op.completes]) rfl rfl
  | test kind completed => exact renumbers_complete hn (List.nodup_dedup completed) rfl rfl

/-- **No message is received twice**: the numbers received in a run are distinct. -/
theorem nodup_received {mpi : Mpi} (ops : List Op) {st : Proc} {tr : Library}
    (hn : st.Numbered) :
    ((run mpi st tr ops).flatMap fun s => (s.op.received s.before).map Prod.fst).Nodup ∧
      ∀ k ∈ (run mpi st tr ops).flatMap fun s => (s.op.received s.before).map Prod.fst,
        (∃ p, st.Holds p k) ∨ st.receives ≤ k := by
  induction ops generalizing st tr with
  | nil => exact ⟨List.nodup_nil, fun k hk => absurd hk (by simp [run])⟩
  | cons op ops ih =>
    have hstep : Renumbers st (op.step mpi st) _ := renumbers_step hn op
    obtain ⟨hnodup, hknown⟩ := @ih _ ((op.call mpi st).run tr).2 hstep.numbered
    rw [run, List.flatMap_cons]
    refine ⟨List.nodup_append.mpr ⟨hstep.nodup, hnodup, ?_⟩, fun k hk => ?_⟩
    · -- what was completed is held no more, and not posted again
      rintro k hk _ hk' rfl
      rcases hknown k hk' with ⟨p, hp⟩ | hle
      · exact hstep.gone k hk p hp
      · exact absurd (hstep.below k hk) (by omega)
    · rcases List.mem_append.mp hk with hk | hk
      · exact hstep.known k hk
      · rcases hknown k hk with ⟨p, hp⟩ | hle
        · exact hstep.held hp
        · exact Or.inr (hstep.grows.trans hle)

/-! ## What is recorded -/

/-- A completed receive's status names its source. -/
theorem source_of_real {st : Proc} {mpi : Mpi} {blank : Ptr → Int32} {p : Ptr} {k : Nat}
    {source : Int32} (h : st.real p = some (k, source)) : st.source mpi blank p = source := by
  rw [Proc.source, held_of_real h]
  rfl

section
variable {mpi : Mpi} {st : Proc}

/-- The records of a wait, when every noted variable it is given holds a receive. -/
theorem looks_named {xs : List (Ptr × Int32)}
    (hclear : ∀ x ∈ xs, st.noted x.1 = true → (st.real x.1).isSome)
    (hsource : ∀ x ∈ xs, ∀ k source, st.real x.1 = some (k, source) → x.2 = source) :
    (xs.filter fun x => st.noted x.1).map (fun x => rstEventI akyPtpRecv x.2.toUInt32) =
      (((xs.map Prod.fst).filter st.noted).filterMap st.real).map
        fun m => rstEventI akyPtpRecv m.2.toUInt32 := by
  induction xs with
  | nil => rfl
  | cons x xs ih =>
    have ih := ih (fun y hy => hclear y (by simp [hy])) fun y hy => hsource y (by simp [hy])
    cases hn : st.noted x.1 with
    | false =>
      rw [List.filter_cons_of_neg (by simp [hn]), List.map_cons,
        List.filter_cons_of_neg (by simp [hn]), ih]
    | true =>
      obtain ⟨⟨k, source⟩, hreal⟩ := Option.isSome_iff_exists.mp (hclear x (by simp) hn)
      rw [List.filter_cons_of_pos (by simp [hn]), List.map_cons, ih, List.map_cons,
        List.filter_cons_of_pos (by simp [hn]), List.filterMap_cons_some hreal, List.map_cons,
        hsource x (by simp) k source hreal]

theorem looks_source (op : Op) (hop : ∀ base, op ≠ .waitanyUndefined base) :
    ∀ x ∈ op.looks mpi st, ∀ k source, st.real x.1 = some (k, source) → x.2 = source := by
  intro x hx k source hreal
  cases op with
  | wait request blank =>
    rw [Op.looks, List.mem_singleton] at hx
    rw [hx] at hreal ⊢
    exact source_of_real hreal
  | waitall base count blank =>
    obtain ⟨p, _, rfl⟩ := List.mem_map.mp hx
    exact source_of_real hreal
  | waitany base index blank =>
    rw [Op.looks, List.mem_singleton] at hx
    rw [hx] at hreal ⊢
    exact source_of_real hreal
  | waitanyUndefined base => exact absurd rfl (hop base)
  | _ => exact absurd hx (by simp [Op.looks])

theorem ofType_recvs {α : Type} (f : α → UInt32) (xs : List α) :
    ofType akyPtpRecv (xs.map fun x => rstEventI akyPtpRecv (f x)) =
      xs.map fun x => rstEventI akyPtpRecv (f x) := by
  apply List.filter_eq_self.mpr
  intro r hr
  obtain ⟨x, _, rfl⟩ := List.mem_map.mp hr
  simp [rstEventI]

/-- A clear operation that is no send records its messages. -/
theorem messages_named (op : Op) (hclear : op.Clear mpi st)
    (hsend : ∀ kind s request, op ≠ .send kind s request) :
    op.messages mpi st =
      (op.named mpi st).map fun m => rstEventI akyPtpRecv (op.shown m.2).toUInt32 := by
  cases op with
  | send kind s request => exact absurd rfl (hsend kind s request)
  | recv comm count tsize source =>
    cases source with
    | none => exact absurd rfl hclear
    | some s => rfl
  | waitanyUndefined base =>
    have hn : st.noted (base + mpi.undefined.toInt) = false := hclear
    simp [Op.messages, Op.named, Op.looks, hn]
  | wait request blank =>
    rw [Op.messages, looks_named hclear (looks_source _ (by simp))]
    · rfl
    all_goals simp
  | waitall base count blank =>
    rw [Op.messages, looks_named hclear (looks_source _ (by simp))]
    · rfl
    all_goals simp
  | waitany base index blank =>
    rw [Op.messages, looks_named hclear (looks_source _ (by simp))]
    · rfl
    all_goals simp
  | irecv count tsize source request => rfl
  | exchange kind dest source => rfl
  | start kind started => rfl
  | test kind completed => rfl

/-- **A clear operation records its receives**, and no others. -/
theorem ofType_messages (op : Op) (hclear : op.Clear mpi st) :
    ofType akyPtpRecv (op.messages mpi st) =
      (op.named mpi st).map fun m => rstEventI akyPtpRecv (op.shown m.2).toUInt32 := by
  cases op with
  | send kind s request => rfl
  | _ => rw [messages_named _ hclear (by simp), ofType_recvs]

theorem named_sublist (op : Op) (hclear : op.Clear mpi st) :
    (op.named mpi st).Sublist (op.received st) := by
  cases op with
  | recv comm count tsize source => exact List.Sublist.refl _
  | waitanyUndefined base =>
    have hn : st.noted (base + mpi.undefined.toInt) = false := hclear
    simp [Op.named, Op.looks, hn]
  | waitall base count blank =>
    rw [Op.named, looks_waitall]
    · exact List.filter_sublist.filterMap _
    all_goals simp
  | wait request blank => exact List.filter_sublist.filterMap _
  | waitany base index blank => exact List.filter_sublist.filterMap _
  | _ => exact List.nil_sublist _

/-- A received message that is recorded is recorded under its source, whatever else the call
    records. -/
theorem record_of_named (op : Op) {m : Nat × Int32} (hr : m ∈ op.received st)
    (hm : m ∈ op.named mpi st) :
    rstEventI akyPtpRecv (op.shown m.2).toUInt32 ∈ op.messages mpi st := by
  have hlooks : (∀ base, op ≠ .waitanyUndefined base) →
      m ∈ (((op.looks mpi st).map Prod.fst).filter st.noted).filterMap st.real →
      rstEventI akyPtpRecv m.2.toUInt32 ∈ ((op.looks mpi st).filter fun x => st.noted x.1).map
        fun x => rstEventI akyPtpRecv x.2.toUInt32 := by
    intro hop hm
    obtain ⟨p, hp, hreal⟩ := List.mem_filterMap.mp hm
    obtain ⟨hp, hn⟩ := List.mem_filter.mp hp
    obtain ⟨x, hx, rfl⟩ := List.mem_map.mp hp
    rw [← looks_source op hop x hx m.1 m.2 hreal]
    exact List.mem_map.mpr ⟨x, List.mem_filter.mpr ⟨hx, hn⟩, rfl⟩
  cases op with
  | recv comm count tsize source =>
    cases source with
    | none => exact absurd hm (by simp [Op.named])
    | some s =>
      rw [Op.named, Option.map_some, Option.toList_some, List.mem_singleton] at hm
      rw [hm]
      exact List.mem_singleton.mpr rfl
  | waitanyUndefined base => exact absurd hr (by simp [Op.received, Op.completes])
  | wait | waitall | waitany => exact hlooks (by simp) hm
  | _ => exact absurd hm (by simp [Op.named, Op.looks])

/-! ## Sources -/

/-- The receives that variables hold are from such processes. -/
def Proc.Awaits (P : Int32 → Prop) (st : Proc) : Prop :=
  ∀ p k source, st.held p = .receive k (some source) → P source

/-- The receives that are put into variables are from such processes. -/
def Op.Posts (P : Int32 → Prop) : Op → Prop
  | .irecv _ _ source _ => ∀ s ∈ source, P s
  | .start _ started => ∀ source request, .receive source request ∈ started → ∀ s ∈ source, P s
  | _ => True

section
variable {P : Int32 → Prop}

theorem awaits_init : Proc.init.Awaits P := fun p k source h => absurd h (by simp [Proc.init])

theorem awaits_post (h : st.Awaits P) (request : Ptr) {v : Held}
    (hv : ∀ k source, v = .receive k (some source) → P source) : (st.post request v).Awaits P := by
  intro p k source hp
  by_cases hpr : p = request
  · subst hpr
    simp only [Proc.post, Function.update_self] at hp
    exact hv k source hp
  · simp only [Proc.post, Function.update_of_ne hpr] at hp
    exact h p k source hp

theorem awaits_complete (h : st.Awaits P) (requests : List Ptr) :
    (st.complete requests).Awaits P := by
  intro p k source hp
  by_cases hm : p ∈ requests
  · simp [Proc.complete, hm] at hp
  · exact h p k source (by simpa [Proc.complete, hm] using hp)

theorem awaits_start (h : st.Awaits P) {started : List Started}
    (hs : ∀ source request, .receive source request ∈ started → ∀ s ∈ source, P s) :
    (started.foldl Proc.start st).Awaits P := by
  induction started generalizing st with
  | nil => exact h
  | cons s started ih =>
    refine ih ?_ fun source request hmem => hs source request (by simp [hmem])
    cases s with
    | send dest request => exact awaits_post h request (by simp)
    | receive source request =>
      apply awaits_post h request
      intro k s hheld
      simp only [Held.receive.injEq] at hheld
      exact hs source request (by simp) s hheld.2

theorem awaits_step (h : st.Awaits P) {op : Op} (hop : op.Posts P) :
    (op.step mpi st).Awaits P := by
  cases op with
  | send kind s request =>
    cases kind with
    | isend => exact awaits_post h request (v := .isend st.sends) (by simp)
    | ibsend | irsend | issend => exact awaits_post h request (v := .other) (by simp)
    | bsend | rsend | send | ssend => exact h
  | recv comm count tsize source => exact h
  | irecv count tsize source request =>
    apply awaits_post h request (v := .receive st.receives source)
    intro k s hheld
    simp only [Held.receive.injEq] at hheld
    exact hop s hheld.2
  | exchange kind dest source => exact h
  | start kind started => exact awaits_start h hop
  | wait request blank => exact awaits_complete h [request]
  | waitall base count blank => exact awaits_complete h (arrayOf base count)
  | waitany base index blank => exact awaits_complete h [base + index.toInt]
  | waitanyUndefined base => exact awaits_complete h []
  | test kind completed => exact awaits_complete h completed.dedup

theorem awaits_real (h : st.Awaits P) (ps : List Ptr) : ∀ m ∈ ps.filterMap st.real, P m.2 := by
  rintro ⟨k, source⟩ hm
  obtain ⟨p, _, hp⟩ := List.mem_filterMap.mp hm
  exact h p k source (held_of_real hp)

end

/-- `x` names one of `n` ranks. -/
def IsRank (n : Nat) (x : Int32) : Prop := x.toUInt32.toNat < n

instance (n : Nat) (x : Int32) : Decidable (IsRank n x) := inferInstanceAs (Decidable (_ < _))

/-- MPI's part: the processes that messages come from have ranks. -/
def Op.Ranked (n : Nat) : Op → Prop
  | .recv comm _ _ source => ∀ s ∈ source, IsRank n (akyTranslateRank comm s)
  | op => op.Posts (IsRank n)

theorem Op.Ranked.posts {n : Nat} {op : Op} (h : op.Ranked n) : op.Posts (IsRank n) := by
  cases op <;> first | exact h | trivial

theorem named_ranked {n : Nat} (h : st.Awaits (IsRank n)) {op : Op} (hop : op.Ranked n) :
    ∀ m ∈ op.named mpi st, IsRank n (op.shown m.2) := by
  intro m hm
  cases op with
  | recv comm count tsize source =>
    cases source with
    | none => exact absurd hm (by simp [Op.named])
    | some s =>
      rw [Op.named, Option.map_some, Option.toList_some, List.mem_singleton] at hm
      rw [hm]
      exact hop s rfl
  | _ => exact awaits_real h _ m hm

end

/-! ## Runs -/

/-- The messages `ms` account for the receives that a call records: each was received from a
    real process in this call, and is recorded under its source. -/
structure Step.Accounted (n : Nat) (s : Step) (ms : List (Nat × Int32)) : Prop where
  received : ms.Sublist (s.op.received s.before)
  records : ofType akyPtpRecv s.records = ms.map fun m => rstEventI akyPtpRecv (s.op.shown m.2).toUInt32
  ranks : ∀ m ∈ ms, IsRank n (s.op.shown m.2)

/-- **No phantom receives**: every receive that is recorded in a run is accounted for, by the
    call that records it, with a message that no other record accounts for. -/
def NoPhantoms (n : Nat) (steps : List Step) : Prop :=
  ∃ mss, List.Forall₂ (Step.Accounted n) steps mss ∧ (mss.flatten.map Prod.fst).Nodup

theorem run_accounted {mpi : Mpi} {n : Nat} {ops : List Op} {st : Proc} {tr : Library}
    (h : Agrees st tr) (hr : st.Awaits (IsRank n)) (hops : ∀ op ∈ ops, op.Ranked n)
    (hclear : ∀ s ∈ run mpi st tr ops, s.op.Clear mpi s.before) :
    List.Forall₂ (Step.Accounted n) (run mpi st tr ops)
      ((run mpi st tr ops).map fun s => s.op.named mpi s.before) := by
  induction ops generalizing st tr with
  | nil => exact List.Forall₂.nil
  | cons op ops ih =>
    have hop := hclear ⟨st, op, ((op.call mpi st).run tr).1⟩ (by simp [run])
    refine List.Forall₂.cons ⟨named_sublist op hop, ?_, named_ranked hr (hops op (by simp))⟩
      (ih (agrees_step h op) (awaits_step hr (hops op (by simp)).posts)
        (fun op' h' => hops op' (by simp [h'])) fun s hs => hclear s (by simp [run, hs]))
    rw [← ofType_linkRecords (arm_message akyPtpRecv (by simp)), messages_eq h op]
    exact ofType_messages op hop

/-- The numbers that are recorded in a run are distinct. -/
theorem nodup_named {mpi : Mpi} {ops : List Op}
    (hclear : ∀ s ∈ history mpi ops, s.op.Clear mpi s.before) :
    ((history mpi ops).flatMap fun s => (s.op.named mpi s.before).map Prod.fst).Nodup :=
  (List.Sublist.flatMap_right _ fun s hs =>
    (named_sublist s.op (hclear s hs)).map Prod.fst).nodup (nodup_received ops numbered_init).1

/-- **In a run whose operations are all clear there are no phantom receives.** -/
theorem history_noPhantoms (mpi : Mpi) (n : Nat) (ops : List Op)
    (hops : ∀ op ∈ ops, op.Ranked n)
    (hclear : ∀ s ∈ history mpi ops, s.op.Clear mpi s.before) :
    NoPhantoms n (history mpi ops) := by
  refine ⟨_, run_accounted agrees_init awaits_init hops hclear, ?_⟩
  rw [← List.flatMap_def, List.map_flatMap]
  exact nodup_named hclear

/-- The values of MPICH. -/
def mpich : Mpi := { procNull := -1, anySource := -2, undefined := -32766 }

/-- A receive that is posted and waited for. -/
def irecvWait : List Op := [.irecv 1 4 (some 0) 0, .wait 0 fun _ => 0]

theorem history_noPhantoms_irecvWait : NoPhantoms 2 (history mpich irecvWait) :=
  history_noPhantoms mpich 2 irecvWait
    (by
      intro op hop
      rcases List.mem_cons.mp hop with rfl | hop
      · exact fun s hs => by cases hs; decide
      · rw [List.mem_singleton.mp hop]; trivial)
    (by
      intro s hs
      rcases List.mem_cons.mp hs with rfl | hs
      · exact fun x hx => absurd hx (by simp [Op.looks])
      · rw [List.mem_singleton.mp hs]
        intro x hx _
        rw [List.mem_singleton.mp hx]
        rfl)

/-- A receive that a test completes, and a wait on the same variable afterwards. -/
def irecvTestWait : List Op :=
  [.irecv 1 4 (some 0) 0, .test .test [0], .wait 0 fun _ => 0]

/-- The wait records a receive from `MPI_ANY_SOURCE`. -/
theorem not_noPhantoms : ¬ NoPhantoms 2 (history mpich irecvTestWait) := by
  rintro ⟨mss, h, _⟩
  obtain ⟨_, _, _, h, _⟩ := List.forall₂_cons_left_iff.mp h
  obtain ⟨_, _, _, h, _⟩ := List.forall₂_cons_left_iff.mp h
  obtain ⟨ms, _, hacc, _, _⟩ := List.forall₂_cons_left_iff.mp h
  -- nothing is received in the wait, and still it records a receive
  have hnone : ms = [] := List.sublist_nil.mp hacc.received
  have hrecords := hacc.records
  rw [hnone] at hrecords
  exact absurd hrecords (by decide +kernel)

end System
end Akypuera

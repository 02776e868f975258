import Akypuera.Converter.Shown
import Akypuera.Lib.Scene

/-!
# The converted trace, line by line

What a reader of the Paje trace takes from each line (`Paje.line`); the extra fields of the declared
variants are not read. The header declares the types (`run_hierarchy`), and **every line of a round
rests on the root container** (`Shows.under`), with states and links of the declared types.
-/

set_option autoImplicit false

namespace Akypuera
namespace Converter

open CText Scene

def sZero : Str := "0".toList
def sROOT : Str := "ROOT".toList

/-- A type definition, as it is read. -/
def Definition.line {τ : Type} : Definition → Line Str τ
  | defineContainerType aliasName type _ => .containerType aliasName type
  | defineStateType aliasName type _ => .stateType aliasName type
  | defineLinkType aliasName type source dest _ => .linkType aliasName type source dest

/-- An event, as it is read. -/
def Paje.line : Paje → Line Str ℚ
  | createContainer time aliasName type container name => .create time aliasName type container name
  | destroyContainer time type name => .destroy time type name
  | pushState time container type value _ => .push time container type value
  | popState time container type => .pop time container type
  | startLink time container type source value key _ =>
      .startLink time container type source value key
  | endLink time container type dest value key => .endLink time container type dest value key

/-- What a reader sees of everything that `main` writes. -/
def lines (options : Options) (size : Option Nat) (es : List Event) : List (Line Str ℚ) :=
  (output options size es).map (Sum.elim Definition.line Paje.line)

/-- The types of `aky_paje_hierarchy`. -/
def akyTypes : Types Str where
  containers := [(sROOT, sZero), (sProcess, sROOT)]
  states := [(sState, sProcess)]
  links := [(sLink, sROOT, sProcess, sProcess)]
  values := []

/-- The world that the header leaves. -/
def akyWorld {τ : Type} : World Str τ := ⟨sZero, akyTypes, fun _ => .absent⟩

/-- **The header is accepted.** -/
theorem run_hierarchy {τ : Type} :
    (World.start sZero : World Str τ).run (akyPajeHierarchy.map Definition.line) =
      some akyWorld := by
  rfl

theorem container_line (p : Paje) : p.line.container = some p.container := by
  cases p <;> rfl

theorem sRoot_ne_sZero : sRoot ≠ sZero := by decide

theorem mpiProcess_ne_sZero (id : UInt64) : mpiProcess id ≠ sZero := by
  rw [mpiProcess_eq]
  intro h
  have hhead := congrArg List.head? h
  have hrank : "rank".toList = ['r', 'a', 'n', 'k'] := by decide
  have hzero : sZero = ['0'] := by decide
  rw [hrank, hzero] at hhead
  simp at hhead

variable {args : Arguments} {e : Event} {ps : List Paje}

/-- A link is drawn in the root, between processes. -/
theorem entryPaje_under (entry : Fifo.Entry Link Str) :
    (entryPaje e entry).line.Inner akyTypes sProcess ∧
      (entryPaje e entry).line.Under akyTypes sZero sRoot sROOT := by
  have htype : ∃ l ∈ akyTypes.links, l.1 = sLink ∧ l.2.1 = sROOT := by decide
  have hmine : some (mpiProcess e.id1) ≠ some sZero ∧ some (mpiProcess e.id1) ≠ some sRoot :=
    ⟨fun h => mpiProcess_ne_sZero _ (Option.some.inj h),
      fun h => mpiProcess_ne_root _ (Option.some.inj h)⟩
  cases entry with
  | push l key =>
    have hsource : ∃ l ∈ akyTypes.links, l.1 = sLink ∧ l.2.2.1 = sProcess := by decide
    have hstart : ∃ v u, startLink e l.1.keys key =
        .startLink e.timestamp sRoot sLink (mpiProcess e.id1) v key u := by
      unfold startLink linksizemark
      split
      split <;> exact ⟨_, _, rfl⟩
    obtain ⟨v, u, hstart⟩ := hstart
    rw [entryPaje, hstart]
    exact ⟨hsource, hmine.1, hmine.2, rfl, htype⟩
  | pop l ans =>
    have hdest : ∃ l ∈ akyTypes.links, l.1 = sLink ∧ l.2.2.2 = sProcess := by decide
    exact ⟨hdest, hmine.1, hmine.2, rfl, htype⟩

theorem Shows.link_mem (h : Shows args e ps) {p : Paje} (hp : p ∈ ps) (hlink : p.isLink = true) :
    ∃ entry, p = entryPaje e entry := by
  obtain ⟨log, hlog, -⟩ := h.links
  have hmem : p ∈ ps.filter Paje.isLink := List.mem_filter.mpr ⟨hp, hlink⟩
  rw [hlog] at hmem
  obtain ⟨entry, -, heq⟩ := List.mem_map.mp hmem
  exact ⟨entry, heq.symm⟩

/-- Only `MPI_INIT` creates a container, under the root. -/
theorem create_of_wrote (h : Wrote args e ps) {t : ℚ} {a ty c n : Str}
    (hp : Paje.createContainer t a ty c n ∈ ps) : ty = sProcess ∧ c = sRoot := by
  unfold Wrote at h
  cases ha : arm e.type with
  | init =>
    simp only [ha] at h
    rw [h, List.mem_singleton] at hp
    cases hp
    exact ⟨rfl, rfl⟩
  | pushState | pushStateSend | pushStateRecv =>
    simp only [ha] at h
    split at h
    · rw [h] at hp
      exact absurd hp List.not_mem_nil
    · obtain ⟨v, u, h⟩ := h
      rw [h, List.mem_singleton] at hp
      cases hp
  | popState | finalizeOut =>
    simp only [ha] at h
    cases hs : args.noStates <;> simp [h, hs] at hp
  | skip =>
    simp only [ha] at h
    rw [h] at hp
    exact absurd hp List.not_mem_nil
  | _ =>
    simp only [ha] at h
    exact absurd (h _ hp).1 (by simp [Paje.isLink])

/-- **What a round writes rests on the root.** -/
theorem Shows.under (h : Shows args e ps) :
    ∀ p ∈ ps, p.line.Under akyTypes sZero sRoot sROOT := by
  intro p hp
  have hc := h.wrote.container p hp
  have hown : p.line.container ≠ some sZero ∧ p.line.container ≠ some sRoot := by
    rw [container_line, hc]
    exact ⟨fun h => mpiProcess_ne_sZero _ (Option.some.inj h),
      fun h => mpiProcess_ne_root _ (Option.some.inj h)⟩
  cases p with
  | createContainer t a ty c n =>
    obtain ⟨rfl, rfl⟩ := create_of_wrote h.wrote hp
    exact ⟨hown.1, hown.2, rfl, by decide⟩
  | startLink t c ty s v k u =>
    obtain ⟨entry, heq⟩ := h.link_mem hp rfl
    rw [heq]
    exact (entryPaje_under entry).2
  | endLink t c ty d v k =>
    obtain ⟨entry, heq⟩ := h.link_mem hp rfl
    rw [heq]
    exact (entryPaje_under entry).2
  | _ => exact ⟨hown.1, hown.2, trivial⟩

/-- The type of a state that is pushed or popped. -/
def Paje.stateType : Paje → Option Str
  | pushState _ _ type _ _ | popState _ _ type => some type
  | _ => none

/-- States are of the type `STATE`. -/
theorem state_of_wrote (h : Wrote args e ps) {p : Paje} (hp : p ∈ ps) :
    ∀ type ∈ p.stateType, type = sState := by
  unfold Wrote at h
  cases ha : arm e.type with
  | init =>
    simp only [ha] at h
    rw [h, List.mem_singleton] at hp
    simp [hp, Paje.stateType]
  | pushState | pushStateSend | pushStateRecv =>
    simp only [ha] at h
    split at h
    · rw [h] at hp
      exact absurd hp List.not_mem_nil
    · obtain ⟨v, u, h⟩ := h
      rw [h, List.mem_singleton] at hp
      simp [hp, Paje.stateType]
  | popState | finalizeOut =>
    simp only [ha] at h
    rw [h] at hp
    cases hs : args.noStates <;> simp [hs] at hp <;>
      first | (rcases hp with hp | hp <;> simp [hp, Paje.stateType]) | simp [hp, Paje.stateType]
  | skip =>
    simp only [ha] at h
    rw [h] at hp
    exact absurd hp List.not_mem_nil
  | _ =>
    simp only [ha] at h
    have hlink := (h p hp).1
    cases p <;> simp [Paje.isLink, Paje.stateType] at hlink ⊢

end Converter
end Akypuera

import Akypuera.Otf2.Tree

/-!
# The nodes of the system tree

A run over nodes goes through exactly when **the nodes with a new class come first** and whatever
has a node above it has one of these (`NodesFit`, `nodes_run`, `nodes_fit`). Then the tables hold
the new classes and all names, and each container is written under the one of its parent
(`NodesDone`, `NodeRounds`).
-/

set_option autoImplicit false

namespace Akypuera
namespace Otf2

open CText

variable {args : Arguments} {st₀ st : State} {types : List Str} {nodes : List Node} {node : Node}

/-- The definitions of nodes, numbered from 0. -/
def defineNodes (nodes : List Node) : List Definition := nodes.mapIdx Node.define

theorem defineNodes_snoc (nodes : List Node) (node : Node) :
    defineNodes (nodes ++ [node]) = defineNodes nodes ++ [node.define nodes.length] :=
  List.mapIdx_concat

/-- The classes that are read for nodes that come after some others. -/
def classesFrom (text : UInt32 → Str) : List Node → List Node → List Str
  | _, [] => []
  | before, node :: nodes => node.classRead text before :: classesFrom text (before ++ [node]) nodes

def classesRead (text : UInt32 → Str) (nodes : List Node) : List Str := classesFrom text [] nodes

theorem classesFrom_snoc (text : UInt32 → Str) (before nodes : List Node) (node : Node) :
    classesFrom text before (nodes ++ [node]) =
      classesFrom text before nodes ++ [node.classRead text (before ++ nodes)] := by
  induction nodes generalizing before with
  | nil => simp [classesFrom]
  | cons first nodes ih => simp [classesFrom, ih]

theorem classesRead_snoc (text : UInt32 → Str) (nodes : List Node) (node : Node) :
    classesRead text (nodes ++ [node]) = classesRead text nodes ++ [node.classRead text nodes] :=
  classesFrom_snoc text [] nodes node

theorem length_classesRead (text : UInt32 → Str) (nodes : List Node) :
    (classesRead text nodes).length = nodes.length := by
  induction nodes using List.reverseRecOn with
  | nil => rfl
  | append_singleton nodes node ih =>
    rw [classesRead_snoc, List.length_append, ih, List.length_append]
    rfl

/-- The nodes are in order: each is below the root, or below a node before it. -/
structure NodesOrdered (defined : UInt32 → Prop) (nodes : List Node) : Prop where
  readable : ∀ node ∈ nodes, node.Readable defined
  ordered : ∀ k (hk : k < nodes.length), nodes[k].Ordered (nodes.take k)

/-- **When all nodes fit**: the nodes with a new class come first, and everything is below one of
    them. -/
structure NodesFit (text : UInt32 → Str) (nodes : List Node) (types : List Str) : Prop where
  room : nodes.length < 2 ^ 31
  first : types <+: classesRead text nodes
  nodup : types.Nodup
  all : classesRead text nodes ⊆ types
  above : ∀ node ∈ nodes, node.parent = undefinedNode ∨ node.parent.toNat < types.length

instance (names : Names) : DecidablePred names.Readable := fun _ =>
  inferInstanceAs (Decidable (_ = true))

instance (defined : UInt32 → Prop) [DecidablePred defined] (node : Node) :
    Decidable (node.Readable defined) := inferInstanceAs (Decidable (_ ∧ _))

instance (nodes : List Node) (node : Node) : Decidable (node.Ordered nodes) :=
  inferInstanceAs (Decidable (_ ∨ _))

variable {defined : UInt32 → Prop}

theorem NodesOrdered.init (h : NodesOrdered defined (nodes ++ [node])) :
    NodesOrdered defined nodes where
  readable := fun n hn => h.readable n (List.mem_append_left _ hn)
  ordered := fun k hk => by
    have hk' := h.ordered k (by rw [List.length_append]; omega)
    rwa [List.getElem_append_left hk, List.take_append_of_le_length hk.le] at hk'

theorem NodesOrdered.last (h : NodesOrdered defined (nodes ++ [node])) :
    node.Readable defined ∧ node.Ordered nodes := by
  have hlast := h.ordered nodes.length (by simp)
  rw [List.getElem_concat_length rfl, List.take_left] at hlast
  exact ⟨h.readable node (by simp), hlast⟩

theorem NodesFit.length_le {text : UInt32 → Str} (h : NodesFit text nodes types) :
    types.length ≤ nodes.length := by
  rw [← length_classesRead text]
  exact h.first.length_le

/-- One more node that fits. -/
theorem NodesFit.snoc {text : UInt32 → Str} (h : NodesFit text nodes types)
    (hf : node.Fits text nodes types) :
    NodesFit text (nodes ++ [node]) (typesAfter types (node.classRead text nodes)) := by
  have hle : types.length ≤ (typesAfter types (node.classRead text nodes)).length := by
    rw [typesAfter]
    split <;> simp
  have habove : ∀ n ∈ nodes ++ [node], n.parent = undefinedNode ∨
      n.parent.toNat < (typesAfter types (node.classRead text nodes)).length := by
    intro n hn
    rcases List.mem_append.mp hn with hn | hn
    · exact (h.above n hn).imp_right fun hlt => hlt.trans_le hle
    · rw [List.mem_singleton.mp hn]
      exact hf.above.imp_right fun hlt => hlt.trans_le hle
  have hroom : (nodes ++ [node]).length < 2 ^ 31 := by
    rw [List.length_append]
    exact hf.room
  by_cases hmem : node.classRead text nodes ∈ types
  · rw [typesAfter, if_pos hmem] at habove ⊢
    refine ⟨hroom, ?_, h.nodup, ?_, habove⟩
    · rw [classesRead_snoc]
      exact h.first.trans (List.prefix_append _ _)
    · rw [classesRead_snoc]
      exact List.append_subset.mpr ⟨h.all, by simpa using hmem⟩
  · -- all classes so far were new
    have heq : types = classesRead text nodes :=
      h.first.eq_of_length (by rw [hf.new.resolve_left hmem, length_classesRead])
    rw [typesAfter, if_neg hmem] at habove ⊢
    refine ⟨hroom, ?_, ?_, ?_, habove⟩
    · rw [classesRead_snoc, heq]
    · exact List.nodup_append.mpr ⟨h.nodup, List.nodup_singleton _, by
        rintro a ha b hb rfl
        exact hmem (List.mem_singleton.mp hb ▸ ha)⟩
    · rw [classesRead_snoc, heq]
      exact List.Subset.refl _

/-- And all but the last, if all fit. -/
theorem NodesFit.unsnoc {text : UInt32 → Str} (h : NodesFit text (nodes ++ [node]) types)
    (ho : ∀ k (hk : k < nodes.length), nodes[k].Ordered (nodes.take k)) (hlast : node.Ordered nodes) :
    ∃ before, NodesFit text nodes before ∧ node.Fits text nodes before ∧
      types = typesAfter before (node.classRead text nodes) := by
  have hroom := h.room
  have hfirst := h.first
  have hall := h.all
  have hlen := length_classesRead text nodes
  rw [List.length_append, List.length_singleton] at hroom
  rw [classesRead_snoc] at hfirst hall
  rcases List.prefix_concat_iff.mp hfirst with hnew | hfound
  · -- the last class is new, and so were all before
    have hnodup := h.nodup
    rw [hnew] at hnodup
    obtain ⟨hbefore, -, hdisj⟩ := List.nodup_append.mp hnodup
    have hmem : node.classRead text nodes ∉ classesRead text nodes := fun hmem =>
      hdisj _ hmem _ (List.mem_singleton_self _) rfl
    refine ⟨classesRead text nodes, ⟨by omega, List.prefix_rfl, hbefore, List.Subset.refl _, ?_⟩,
      ⟨hroom, hlen ▸ hlast, Or.inr hlen⟩, by rw [hnew, typesAfter, if_neg hmem]⟩
    -- and so what is above a node is a node before it
    intro n hn
    obtain ⟨k, hk, rfl⟩ := List.getElem_of_mem hn
    apply (ho k hk).imp_right
    intro hlt
    rw [List.length_take] at hlt
    omega
  · have hmem : node.classRead text nodes ∈ types := hall (by simp)
    refine ⟨types, ⟨by omega, hfound, h.nodup, ?_, fun n hn => ?_⟩, ⟨hroom, ?_, Or.inl hmem⟩,
      by rw [typesAfter, if_pos hmem]⟩
    · exact fun c hc => hall (List.mem_append_left _ hc)
    · exact h.above n (List.mem_append_left _ hn)
    · exact h.above node (by simp)

/-! ## Runs over the nodes -/

theorem run_cons {mode : Mode} {st st₁ : State} {d : Definition} {outs : List Paje}
    (h : d.call args mode st = some (st₁, outs)) (ds : List Definition) :
    run args mode st (d :: ds) = (run args mode st₁ ds).map fun p => (p.1, (d, outs) :: p.2) := by
  rw [run, h, Option.bind_eq_bind, Option.bind_some]
  cases hrun : run args mode st₁ ds <;> simp [hrun]

theorem call_of_run {mode : Mode} {st : State} {d : Definition} {ds : List Definition}
    (h : (run args mode st (d :: ds)).isSome = true) :
    ∃ st₁ outs, d.call args mode st = some (st₁, outs) ∧ (run args mode st₁ ds).isSome = true := by
  cases hcall : d.call args mode st with
  | none => rw [run, hcall] at h; cases h
  | some p =>
    rw [run_cons hcall, Option.isSome_map] at h
    exact ⟨p.1, p.2, rfl, h⟩

theorem run_append (mode : Mode) (st : State) (ds es : List Definition) :
    run args mode st (ds ++ es) = (run args mode st ds).bind fun p =>
      (run args mode p.1 es).map fun q => (q.1, p.2 ++ q.2) := by
  induction ds generalizing st with
  | nil => simp [run]
  | cons d ds ih =>
    rw [List.cons_append, run, run]
    cases d.call args mode st with
    | none => rfl
    | some p =>
      simp only [Option.bind_eq_bind, Option.bind_some, ih]
      cases run args mode p.1 ds with
      | none => rfl
      | some q =>
        cases hes : run args mode q.1 es <;> simp [hes]

/-- The first of the definitions that go through. -/
theorem prefix_of_run {mode : Mode} {st : State} {ds es : List Definition}
    (h : (run args mode st (ds ++ es)).isSome = true) :
    ∃ st₁ rounds, run args mode st ds = some (st₁, rounds) ∧
      (run args mode st₁ es).isSome = true := by
  rw [run_append] at h
  cases hrun : run args mode st ds with
  | none => rw [hrun] at h; cases h
  | some p =>
    rw [hrun, Option.bind_some, Option.isSome_map] at h
    exact ⟨p.1, p.2, rfl, h⟩

theorem run_singleton (mode : Mode) (st : State) (d : Definition) :
    run args mode st [d] = (d.call args mode st).map fun p => (p.1, [(d, p.2)]) := by
  rw [run]
  cases d.call args mode st <;> rfl

/-- What is written for the nodes: each container under the one of its parent. -/
structure NodeRounds (args : Arguments) (text : UInt32 → Str) (nodes : List Node)
    (rounds : List (Definition × List Paje)) : Prop where
  placed : ∀ round ∈ rounds, ∃ (k : Nat) (node : Node), nodes[k]? = some node ∧ round.1 = node.define k ∧
    ∀ time name type container label, .createContainer time name type container label ∈ round.2 →
      container = containerAbove text nodes node.parent
  created : args.dummy = false → ∀ node ∈ nodes, ∃ round ∈ rounds, ∃ type container,
    .createContainer 0 (node.container text) type container (node.container text) ∈ round.2

theorem containerAbove_snoc (text : UInt32 → Str) {parent : UInt32}
    (hlen : nodes.length < 2 ^ 32 - 1) (h : parent = undefinedNode ∨ parent.toNat < nodes.length) :
    containerAbove text (nodes ++ [node]) parent = containerAbove text nodes parent := by
  rcases h with rfl | hlt
  · have hsnoc : (nodes ++ [node]).length < 2 ^ 32 := by
      rw [List.length_append, List.length_singleton]
      omega
    rw [containerAbove_undefined text hsnoc, containerAbove_undefined text (by omega)]
  · rw [containerAbove, containerAbove, List.getElem?_append_left hlt]

theorem NodeRounds.init (args : Arguments) (text : UInt32 → Str) : NodeRounds args text [] [] :=
  ⟨nofun, fun _ => nofun⟩

theorem container_of_mem_nodeOuts {type parentType name above : Str} {time : ℚ}
    {n t container label : Str}
    (h : .createContainer time n t container label ∈ nodeOuts args types type parentType name above) :
    container = above := by
  unfold nodeOuts at h
  split at h
  · exact absurd h List.not_mem_nil
  · rcases List.mem_append.mp h with h | h
    · split at h
      · exact absurd h List.not_mem_nil
      · exact absurd (List.mem_singleton.mp h) nofun
    · cases List.mem_singleton.mp h
      rfl

theorem NodeRounds.snoc {text : UInt32 → Str} {rounds : List (Definition × List Paje)}
    (h : NodeRounds args text nodes rounds) (hlen : nodes.length < 2 ^ 32 - 1)
    (ho : ∀ k (hk : k < nodes.length), nodes[k].Ordered (nodes.take k)) (hlast : node.Ordered nodes)
    (seen : List Str) (type parentType : Str) :
    NodeRounds args text (nodes ++ [node]) (rounds ++ [(node.define nodes.length,
      nodeOuts args seen type parentType (node.container text)
        (containerAbove text nodes node.parent))]) := by
  constructor
  · intro round hround
    rcases List.mem_append.mp hround with hround | hround
    · obtain ⟨k, n, hget, hdefine, hplaced⟩ := h.placed round hround
      obtain ⟨hk, rfl⟩ := List.getElem?_eq_some_iff.mp hget
      have hbefore : nodes[k].parent = undefinedNode ∨ nodes[k].parent.toNat < nodes.length :=
        (ho k hk).imp_right fun hlt => hlt.trans_le (List.length_take_le' k nodes)
      refine ⟨k, nodes[k], by rw [List.getElem?_append_left hk, hget], hdefine, ?_⟩
      intro time name type container label hmem
      rw [containerAbove_snoc text hlen hbefore]
      exact hplaced time name type container label hmem
    · rw [List.mem_singleton.mp hround]
      refine ⟨nodes.length, node, by simp, rfl, ?_⟩
      intro time name type container label hmem
      rw [containerAbove_snoc text hlen hlast]
      exact container_of_mem_nodeOuts hmem
  · intro hdummy n hn
    rcases List.mem_append.mp hn with hn | hn
    · obtain ⟨round, hround, hcreate⟩ := h.created hdummy n hn
      exact ⟨round, List.mem_append_left _ hround, hcreate⟩
    · rw [List.mem_singleton.mp hn]
      refine ⟨_, List.mem_append_right _ (List.mem_singleton_self _), type,
        containerAbove text nodes node.parent, ?_⟩
      simp [nodeOuts, hdummy]

/-- **The nodes go through when they all fit**, -/
theorem nodes_run (args : Arguments) (h : NodesOrdered st₀.names.Readable nodes)
    (hinit : st₀.tree.Holds [] []) (hf : NodesFit st₀.names.text nodes types) :
    ∃ st rounds, run args .default st₀ (defineNodes nodes) = some (st, rounds) ∧
      NodesDone st₀ nodes types st ∧ NodeRounds args st₀.names.text nodes rounds := by
  induction nodes using List.reverseRecOn generalizing types with
  | nil =>
    cases List.prefix_nil.mp hf.first
    exact ⟨st₀, [], rfl, ⟨hinit, fun i => by simp, rfl⟩, NodeRounds.init ..⟩
  | append_singleton nodes node ih =>
    -- the nodes before fit as well, with the types that were there
    obtain ⟨before, hbefore, hfits, rfl⟩ := hf.unsnoc h.init.ordered h.last.2
    obtain ⟨st₁, rounds, hrun, hdone, hrounds⟩ := ih h.init hbefore
    obtain ⟨st₂, hcall, hdone₂⟩ := hdone.step args h.last.1 h.last.2 hfits
    have hroom := hfits.room
    refine ⟨st₂, _, ?_, hdone₂,
      hrounds.snoc (by omega) h.init.ordered h.last.2 before
        (node.classRead st₀.names.text nodes) (typeAbove before node.parent)⟩
    rw [defineNodes_snoc, run_append, hrun, Option.bind_some, run_singleton, hcall]
    rfl

/-- **and only then.** -/
theorem nodes_fit (h : NodesOrdered st₀.names.Readable nodes) (hinit : st₀.tree.Holds [] [])
    {rounds : List (Definition × List Paje)}
    (hrun : run args .default st₀ (defineNodes nodes) = some (st, rounds)) :
    ∃ types, NodesFit st₀.names.text nodes types := by
  induction nodes using List.reverseRecOn generalizing st rounds with
  | nil =>
    exact ⟨[], by decide, List.prefix_rfl, List.nodup_nil, List.Subset.refl _, nofun⟩
  | append_singleton nodes node ih =>
    rw [defineNodes_snoc, run_append] at hrun
    obtain ⟨⟨st₁, rounds₁⟩, hrun₁, hrun⟩ := Option.bind_eq_some_iff.mp hrun
    -- the run over the nodes before is the one of `nodes_run`, and the last one had to fit
    obtain ⟨types, hfit⟩ := ih h.init hrun₁
    obtain ⟨st₁', rounds₁', hrun₁', hdone, -⟩ := nodes_run args h.init hinit hfit
    cases hrun₁.symm.trans hrun₁'
    rw [run_singleton] at hrun
    obtain ⟨_, hlast, -⟩ := Option.map_eq_some_iff.mp hrun
    obtain ⟨result, hcall, -⟩ := Option.map_eq_some_iff.mp hlast
    exact ⟨_, hfit.snoc (hdone.fits hfit.length_le h.last.1 h.last.2 hcall)⟩

end Otf2
end Akypuera

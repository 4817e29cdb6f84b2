import Respell.Proofs.Canonicity

/-! Handles that stand for trees, and computations that yield them. A handle denotes a tree when the
store reads it as the tree, now and after any growth; an exact handle is grounded, so that interning
the tree finds it. A computation yields a postcondition from a store on when, started in any later
store, it loses nothing and ends in a store where the postcondition holds of its result. Main
statements: what one interning step of each kind yields (`yields_internType`, `yields_internName`),
and that exact handles of one tree are equal (`Denotes.unique`). -/
namespace Respell

/-- The store reads the handle as the tree, and always will. An exact handle is grounded too. -/
structure Store.Denotes (s : Store) (exact : Prop) {p : Part} (tree : Tree p) (h : p.Handle) :
    Prop where
  settled : s.Settled p h
  reads : s.partTree p h = tree
  grounded : exact → (s.unfold p h).Grounded s

/-- From every state whose store extends `s`, the computation ends in a later store where the
postcondition holds of its result. -/
def Yields {σ α : Type} (store : σ → Store) (s : Store) (act : StateM σ α)
    (post : Store → α → Prop) : Prop :=
  ∀ x, s.Extends (store x) →
    (store x).Extends (store (act x).2) ∧ post (store (act x).2) (act x).1

namespace Yields

variable {σ α β : Type} {store : σ → Store} {s t : Store}

theorem later {act : StateM σ α} {post : Store → α → Prop} (h : Yields store s act post)
    (e : s.Extends t) : Yields store t act post :=
  fun x ex => h x (e.trans ex)

theorem mono {act : StateM σ α} {post post' : Store → α → Prop} (h : Yields store s act post)
    (weaker : ∀ t a, s.Extends t → post t a → post' t a) : Yields store s act post' := by
  intro x e
  obtain ⟨grows, holds⟩ := h x e
  exact ⟨grows, weaker _ _ (e.trans grows) holds⟩

theorem pure {a : α} {post : Store → α → Prop} (h : ∀ t, s.Extends t → post t a) :
    Yields store s (pure a) post :=
  fun x e => ⟨.refl _, h (store x) e⟩

theorem bind {act : StateM σ α} {next : α → StateM σ β} {mid : Store → α → Prop}
    {post : Store → β → Prop} (h : Yields store s act mid)
    (then_ : ∀ t a, s.Extends t → mid t a → Yields store t (next a) post) :
    Yields store s (act >>= next) post := by
  intro x e
  obtain ⟨grows, holds⟩ := h x e
  obtain ⟨grows', holds'⟩ := then_ _ _ (e.trans grows) holds (act x).2 (.refl _)
  exact ⟨grows.trans grows', holds'⟩

theorem congr {act act' : StateM σ α} {post : Store → α → Prop}
    (same : ∀ x, s.Extends (store x) → act x = act' x) (h : Yields store s act' post) :
    Yields store s act post := by
  intro x e
  rw [same x e]
  exact h x e

end Yields

namespace Store

variable {s t : Store} {exact : Prop} {p : Part}

namespace Denotes

theorem extend {tree : Tree p} {h : p.Handle} (d : s.Denotes exact tree h) (e : s.Extends t) :
    t.Denotes exact tree h := by
  refine ⟨Settled.extend d.settled e, ?_, ?_⟩
  · rw [partTree_extend e d.settled, d.reads]
  · intro ex
    rw [unfold_extend e p h d.settled]
    exact (d.grounded ex).extend e.toExtends

theorem self {tree : Tree p} {h : p.Handle} (d : s.Denotes exact tree h) :
    s.Denotes exact (s.partTree p h) h :=
  d.reads.symm ▸ d

theorem found {tree : Tree p} {h : p.Handle} (d : s.Denotes True tree h) :
    tree.intern s = (h, s) := by
  rw [← d.reads, ← tree_unfold]
  exact intern_tree_unfold p h (d.grounded trivial)

theorem unique {tree : Tree p} {h h' : p.Handle} (d : s.Denotes True tree h)
    (d' : s.Denotes True tree h') : h = h' :=
  (Prod.mk.inj (d.found.symm.trans d'.found)).1

theorem eq_of_grounded {tree : Tree p} {h h' : p.Handle} (d : s.Denotes True tree h)
    (grounded : (s.unfold p h').Grounded s) (same : tree = s.partTree p h') : h = h' := by
  have found := intern_tree_unfold p h' grounded
  rw [tree_unfold, ← same] at found
  exact (Prod.mk.inj (d.found.symm.trans found)).1

end Denotes

/-! ### Single steps -/

theorem yields_internText (text : String) :
    Yields id s (internText text) fun t a => t.texts.text? a = some text :=
  fun x _ => ⟨extends_internText text x, text?_internText text x⟩

theorem yields_internType {n : TypeNode} {tree : Tree .type} (fits : s.Fits (.type n))
    (reads : ∀ t, s.Extends t → (t.unfoldNode n).tree = tree)
    (grounded : exact → ∀ t, s.Extends t → (t.unfoldNode n).Grounded t) :
    Yields id s (internType n) fun t h => t.Denotes exact tree h := by
  intro x e
  have there : (x.internNode (.type n)).2.node? (x.internNode (.type n)).1 = some (.type n) :=
    node?_internNode (fits.extend e)
  have grows : x.Extends (internType n x).2 := extends_internType n x
  have unfolds := unfold_of_typeNode? (typeNode?_of_node? there)
  refine ⟨grows, covers_of_node? there, ?_, ?_⟩
  · rw [← tree_unfold]
    exact (congrArg Unfolding.tree unfolds).trans (reads _ (e.trans grows))
  · intro ex
    exact unfolds ▸ grounded ex _ (e.trans grows)

theorem yields_internName {n : NameNode} {tree : Tree .name} (fits : s.Fits (.name n))
    (reads : ∀ t, s.Extends t → (t.unfoldName n).tree = tree)
    (grounded : exact → ∀ t, s.Extends t → (t.unfoldName n).Grounded t) :
    Yields id s (internName n) fun t h => t.Denotes exact tree h := by
  intro x e
  have there : (x.internNode (.name n)).2.node? (x.internNode (.name n)).1 = some (.name n) :=
    node?_internNode (fits.extend e)
  have grows : x.Extends (internName n x).2 := extends_internName n x
  have node : (internName n x).2.nameNode? (internName n x).1 = some n := nameNode?_of_node? there
  have unfolds := unfold_of_nameNode? node
  refine ⟨grows, covers_of_node? there, ?_, ?_⟩
  · rw [← tree_unfold]
    exact (congrArg Unfolding.tree unfolds).trans (reads _ (e.trans grows))
  · intro ex
    exact unfolds ▸ grounded ex _ (e.trans grows)

theorem fits_typeList {types : List QualType} (settled : s.Settled .types types) :
    s.Fits (.typeList types) := by
  refine fits_of_forall (by simp [Node.atoms]) ?_
  intro r hr
  obtain ⟨q, hq, rfl⟩ := List.mem_map.mp hr
  exact settled q hq

theorem fits_nameList {names : List NameId} (settled : s.Settled .names names) :
    s.Fits (.nameList names) := by
  refine fits_of_forall (by simp [Node.atoms]) ?_
  intro r hr
  obtain ⟨n, hn, rfl⟩ := List.mem_map.mp hr
  exact settled n hn

theorem fits_signature {f : Signature} (name : s.Settled .optionalName f.name)
    (result : s.Settled .qualified f.result) (arguments : s.Settled .arguments f.arguments) :
    s.Fits (.signature f) := by
  apply fits_of_forall
  · intro d hd
    obtain ⟨a, ha, hd⟩ := List.mem_flatMap.mp hd
    exact (arguments a ha).2 d (by simpa using hd)
  · intro r hr
    rcases List.mem_cons.mp hr with rfl | hr
    · exact name
    rcases List.mem_cons.mp hr with rfl | hr
    · exact result
    obtain ⟨a, ha, rfl⟩ := List.mem_map.mp hr
    exact (arguments a ha).1

theorem yields_internTypeList {types : List QualType} (settled : s.Settled .types types) :
    Yields id s (internTypeList types) fun t l => t.node? l.slot = some (.typeList types) := by
  intro x e
  exact ⟨extends_internNode x _, node?_internNode ((fits_typeList settled).extend e)⟩

theorem yields_internNameList {names : List NameId} (settled : s.Settled .names names) :
    Yields id s (internNameList names) fun t l => t.node? l.slot = some (.nameList names) := by
  intro x e
  exact ⟨extends_internNode x _, node?_internNode ((fits_nameList settled).extend e)⟩

theorem yields_internSignature {f : Signature} (name : s.Settled .optionalName f.name)
    (result : s.Settled .qualified f.result) (arguments : s.Settled .arguments f.arguments) :
    Yields id s (internSignature f) fun t l => t.node? l.slot = some (.signature f) := by
  intro x e
  exact ⟨extends_internNode x _,
    node?_internNode ((fits_signature name result arguments).extend e)⟩

end Store
end Respell

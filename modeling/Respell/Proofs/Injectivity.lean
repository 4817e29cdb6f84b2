import Respell.Proofs.Canonicity

/-! Handles of any interner, in whatever order its nodes came. A node is there once, so two handles
that read as the same tree lead to one node, provided that the interner gave out the texts and lists
on the way: a text that was never given out reads as the empty one, and a list as the empty list.
Main statement: grounded handles with equal trees are equal (`Interner.eq_of_tree_unfold`). -/
namespace Respell.Interner

variable {i : Interner} {r : Readings}

/-! ### A node has one handle -/

theorem slot_eq_of_node? {slot slot' : Slot} {n : Node} (h : i.node? slot = some n)
    (h' : i.node? slot' = some n) : slot = slot' := by
  cases slot with
  | foreign => simp [node?] at h
  | entry k =>
    cases slot' with
    | foreign => simp [node?] at h'
    | entry k' =>
      have same := (idxOf?_of_node? h).symm.trans (idxOf?_of_node? h')
      rw [Option.some.inj same]

theorem slot_eq_of_typeNode? {slot slot' : Slot} {n : TypeNode} (h : i.typeNode? slot = some n)
    (h' : i.typeNode? slot' = some n) : slot = slot' := by
  unfold typeNode? at h h'
  split at h <;> cases h
  split at h' <;> cases h'
  exact slot_eq_of_node? ‹_› ‹_›

theorem eq_of_nameNode? {name name' : NameId} {n : NameNode} (h : i.nameNode? name = some n)
    (h' : i.nameNode? name' = some n) : name = name' := by
  unfold nameNode? at h h'
  split at h <;> cases h
  split at h' <;> cases h'
  exact congrArg NameId.mk (slot_eq_of_node? ‹_› ‹_›)

theorem eq_of_signature? {signature signature' : SignatureId} {f : Signature}
    (h : i.signature? signature = some f) (h' : i.signature? signature' = some f) :
    signature = signature' := by
  unfold signature? at h h'
  split at h <;> cases h
  split at h' <;> cases h'
  exact congrArg SignatureId.mk (slot_eq_of_node? ‹_› ‹_›)

theorem KnowsTypeList.eq {list list' : TypeListId} (h : i.KnowsTypeList list)
    (h' : i.KnowsTypeList list') (same : i.typeList list = i.typeList list') : list = list' := by
  obtain ⟨types, h⟩ := h
  obtain ⟨types', h'⟩ := h'
  simp only [typeList, h, h'] at same
  exact congrArg TypeListId.mk (slot_eq_of_node? h (same ▸ h'))

theorem KnowsNameList.eq {list list' : NameListId} (h : i.KnowsNameList list)
    (h' : i.KnowsNameList list') (same : i.nameList list = i.nameList list') : list = list' := by
  obtain ⟨names, h⟩ := h
  obtain ⟨names', h'⟩ := h'
  simp only [nameList, h, h'] at same
  exact congrArg NameListId.mk (slot_eq_of_node? h (same ▸ h'))

/-! ### Equal trees -/

/-- Two grounded unfoldings with the same tree. -/
structure Alike (i : Interner) {p : Part} (u u' : Unfolding p) : Prop where
  left : u.Grounded i
  right : u'.Grounded i
  tree : u.tree = u'.tree

theorem Alike.symm {p : Part} {u u' : Unfolding p} (alike : i.Alike u u') : i.Alike u' u :=
  ⟨alike.right, alike.left, alike.tree.symm⟩

/-- Types and names that read alike are equal. Then so are parts and nodes that read alike, and this
carries the step from one depth of reading to the next. -/
structure Faithful (i : Interner) (r : Readings) : Prop where
  type : ∀ {t t' : TypeId}, i.Alike (r.type t) (r.type t') → t = t'
  name : ∀ {n n' : NameId}, i.Alike (r.name n) (r.name n') → n = n'

theorem atom_eq_of_text {a a' : Atom} (known : i.texts.text? a = some (i.text a))
    (known' : i.texts.text? a' = some (i.text a')) (same : i.text a = i.text a') : a = a' :=
  TextTable.atom_eq_of_text? known (same ▸ known')

theorem defaultValue_eq {d d' : Option Atom}
    (known : ∀ x ∈ d.map fun a => (a, i.text a), i.texts.text? x.1 = some x.2)
    (known' : ∀ x ∈ d'.map fun a => (a, i.text a), i.texts.text? x.1 = some x.2)
    (same : (d.map fun a => (a, i.text a)).map (·.2) = (d'.map fun a => (a, i.text a)).map (·.2)) :
    d = d' := by
  cases d <;> cases d'
  · rfl
  · cases same
  · cases same
  · exact congrArg some (atom_eq_of_text (known _ rfl) (known' _ rfl) (Option.some.inj same))

namespace Faithful

variable (faithful : i.Faithful r)

include faithful

theorem qualified {t t' : QualType}
    (alike : i.Alike (r.part i .qualified t) (r.part i .qualified t')) : t = t' := by
  obtain ⟨left, right, same⟩ := alike
  obtain ⟨tree, qualifiers⟩ := Tree.qual.inj same
  have type := faithful.type ⟨left, right, tree⟩
  cases t
  cases t'
  cases type
  cases qualifiers
  rfl

theorem optionalName {n n' : Option NameId}
    (alike : i.Alike (n.elim .noName fun n => .justName (r.name n))
      (n'.elim .noName fun n => .justName (r.name n))) : n = n' := by
  cases n <;> cases n'
  · rfl
  · cases alike.tree
  · cases alike.tree
  · rw [faithful.name ⟨alike.left, alike.right, Tree.justName.inj alike.tree⟩]

theorem types {ts ts' : List QualType}
    (alike : i.Alike (r.part i .types ts) (r.part i .types ts')) : ts = ts' := by
  induction ts generalizing ts' with
  | nil =>
    cases ts' with
    | nil => rfl
    | cons => cases alike.tree
  | cons t rest ih =>
    cases ts' with
    | nil => cases alike.tree
    | cons t' rest' =>
      obtain ⟨left, right, same⟩ := alike
      obtain ⟨first, others⟩ := Tree.consType.inj same
      rw [faithful.qualified ⟨left.1, right.1, first⟩, ih ⟨left.2, right.2, others⟩]

theorem names {ns ns' : List NameId}
    (alike : i.Alike (r.part i .names ns) (r.part i .names ns')) : ns = ns' := by
  induction ns generalizing ns' with
  | nil =>
    cases ns' with
    | nil => rfl
    | cons => cases alike.tree
  | cons n rest ih =>
    cases ns' with
    | nil => cases alike.tree
    | cons n' rest' =>
      obtain ⟨left, right, same⟩ := alike
      obtain ⟨first, others⟩ := Tree.consName.inj same
      rw [faithful.name ⟨left.1, right.1, first⟩, ih ⟨left.2, right.2, others⟩]

theorem arguments {as as' : List Argument}
    (alike : i.Alike (r.part i .arguments as) (r.part i .arguments as')) : as = as' := by
  induction as generalizing as' with
  | nil =>
    cases as' with
    | nil => rfl
    | cons => cases alike.tree
  | cons a rest ih =>
    cases as' with
    | nil => cases alike.tree
    | cons a' rest' =>
      obtain ⟨⟨name, type, texts, left⟩, ⟨name', type', texts', right⟩, same⟩ := alike
      obtain ⟨sameName, sameType, sameText, storage, others⟩ := Tree.consArgument.inj same
      have named := faithful.optionalName ⟨name, name', sameName⟩
      have typed := faithful.qualified ⟨type, type', sameType⟩
      have text := defaultValue_eq texts texts' sameText
      cases a
      cases a'
      cases named
      cases typed
      cases text
      cases storage
      rw [ih ⟨left, right, others⟩]

theorem part {p : Part} {h h' : p.Handle} (alike : i.Alike (r.part i p h) (r.part i p h')) :
    h = h' := by
  cases p with
  | type => exact faithful.type alike
  | qualified => exact faithful.qualified alike
  | name => exact faithful.name alike
  | optionalName => cases h <;> cases h' <;> exact faithful.optionalName alike
  | types => exact faithful.types alike
  | names => exact faithful.names alike
  | arguments => exact faithful.arguments alike

theorem signature {f f' : Signature}
    (alike : i.Alike
      (.function (r.part i .optionalName f.name) (r.part i .qualified f.result)
        (r.part i .arguments f.arguments) f.attributes)
      (.function (r.part i .optionalName f'.name) (r.part i .qualified f'.result)
        (r.part i .arguments f'.arguments) f'.attributes)) : f = f' := by
  obtain ⟨⟨name, result, arguments⟩, ⟨name', result', arguments'⟩, same⟩ := alike
  obtain ⟨names, results, lists, attributes⟩ := Tree.function.inj same
  have name := faithful.part ⟨name, name', names⟩
  have result := faithful.part ⟨result, result', results⟩
  have arguments := faithful.part ⟨arguments, arguments', lists⟩
  cases f
  cases f'
  cases name
  cases result
  cases arguments
  cases attributes
  rfl

theorem function {signature : SignatureId} {n : TypeNode}
    (alike : i.Alike (r.typeNode i (.function signature)) (r.typeNode i n)) :
    .function signature = n := by
  rw [Readings.typeNode] at alike
  cases n with
  | function signature' =>
    rw [Readings.typeNode] at alike
    cases shape : i.signature? signature <;> cases shape' : i.signature? signature' <;>
      simp only [shape, shape'] at alike
    · rw [Tree.shapeless.inj alike.tree]
    · cases alike.tree
    · cases alike.tree
    · rw [eq_of_signature? shape (faithful.signature alike ▸ shape')]
  | _ => split at alike <;> cases alike.tree

theorem typeNode {n n' : TypeNode} (alike : i.Alike (r.typeNode i n) (r.typeNode i n')) :
    n = n' := by
  -- How a function type reads depends on its signature, so it has a lemma for either side.
  cases n with
  | function => exact faithful.function alike
  | integer | float | declared =>
    cases n' with
    | function => exact (faithful.function alike.symm).symm
    | _ => cases alike.tree <;> rfl
  | pointer element =>
    cases n' with
    | function => exact (faithful.function alike.symm).symm
    | pointer => rw [faithful.qualified ⟨alike.left, alike.right, Tree.pointer.inj alike.tree⟩]
    | _ => cases alike.tree
  | reference element =>
    cases n' with
    | function => exact (faithful.function alike.symm).symm
    | reference => rw [faithful.qualified ⟨alike.left, alike.right, Tree.reference.inj alike.tree⟩]
    | _ => cases alike.tree
  | array element size =>
    cases n' with
    | function => exact (faithful.function alike.symm).symm
    | array =>
      obtain ⟨left, right, same⟩ := alike
      obtain ⟨elements, rfl⟩ := Tree.array.inj same
      rw [faithful.qualified ⟨left, right, elements⟩]
    | _ => cases alike.tree
  | memberPointer owner element =>
    cases n' with
    | function => exact (faithful.function alike.symm).symm
    | memberPointer =>
      obtain ⟨left, right, same⟩ := alike
      obtain ⟨owners, elements⟩ := Tree.memberPointer.inj same
      rw [faithful.name ⟨left.1, right.1, owners⟩, faithful.qualified ⟨left.2, right.2, elements⟩]
    | _ => cases alike.tree
  | named name =>
    cases n' with
    | function => exact (faithful.function alike.symm).symm
    | named => rw [faithful.name ⟨alike.left, alike.right, Tree.named.inj alike.tree⟩]
    | _ => cases alike.tree

theorem nameNode {n n' : NameNode} (alike : i.Alike (r.nameNode i n) (r.nameNode i n')) :
    n = n' := by
  cases n with
  | operator =>
    cases n' with
    | operator => rw [Tree.operator.inj alike.tree]
    | _ => cases alike.tree
  | identifier atom =>
    cases n' with
    | identifier atom' =>
      rw [atom_eq_of_text alike.left alike.right (Tree.identifier.inj alike.tree)]
    | _ => cases alike.tree
  | destructor atom =>
    cases n' with
    | destructor atom' =>
      rw [atom_eq_of_text alike.left alike.right (Tree.destructor.inj alike.tree)]
    | _ => cases alike.tree
  | qualified base member =>
    cases n' with
    | qualified =>
      obtain ⟨left, right, same⟩ := alike
      obtain ⟨bases, members⟩ := Tree.qualified.inj same
      rw [faithful.name ⟨left.1, right.1, bases⟩, faithful.name ⟨left.2, right.2, members⟩]
    | _ => cases alike.tree
  | template atom args =>
    cases n' with
    | template atom' args' =>
      obtain ⟨⟨text, list, left⟩, ⟨text', list', right⟩, same⟩ := alike
      obtain ⟨texts, types⟩ := Tree.template.inj same
      rw [atom_eq_of_text text text' texts,
        list.eq list' (faithful.types ⟨left, right, types⟩)]
    | _ => cases alike.tree
  | conversion target =>
    cases n' with
    | conversion =>
      rw [faithful.qualified ⟨alike.left, alike.right, Tree.conversion.inj alike.tree⟩]
    | _ => cases alike.tree
  | selector parts hasArguments =>
    cases n' with
    | selector parts' =>
      obtain ⟨⟨list, left⟩, ⟨list', right⟩, same⟩ := alike
      obtain ⟨names, rfl⟩ := Tree.selector.inj same
      rw [list.eq list' (faithful.names ⟨left, right, names⟩)]
    | _ => cases alike.tree

end Faithful

/-- How a type without a node reads. -/
def leaf : TypeId → Unfolding .type
  | .undefined => .undefined
  | .void => .void
  | t => .unknown t

theorem leaf_injective {t t' : TypeId} (same : (leaf t).tree = (leaf t').tree) : t = t' := by
  cases t <;> cases t' <;> simp_all [leaf, Unfolding.tree]

theorem tree_typeNode_ne_leaf (n : TypeNode) (t : TypeId) :
    (r.typeNode i n).tree ≠ (leaf t).tree := by
  cases n with
  | function =>
    rw [Readings.typeNode]
    split <;> cases t <;> simp [leaf, Unfolding.tree]
  | _ => cases t <;> simp [Readings.typeNode, leaf, Unfolding.tree]

theorem tree_nameNode_ne_unknown (n : NameNode) (name : NameId) :
    (r.nameNode i n).tree ≠ (Unfolding.unknownName name).tree := by
  cases n <;> simp [Readings.nameNode, Unfolding.tree]

theorem type_readings_succ (depth : Nat) (t : TypeId) :
    (∃ slot n, t = .stored slot ∧ i.typeNode? slot = some n ∧
      (i.readings (depth + 1)).type t = (i.readings depth).typeNode i n) ∨
    (i.readings (depth + 1)).type t = leaf t := by
  cases t with
  | undefined | void | reserved => exact .inr rfl
  | stored slot =>
    simp only [readings]
    split <;> rename_i node
    · exact .inr rfl
    · exact .inl ⟨slot, _, rfl, node, rfl⟩

theorem faithful_readings (i : Interner) (depth : Nat) : i.Faithful (i.readings depth) := by
  induction depth with
  | zero =>
    exact ⟨fun alike => Tree.unknown.inj alike.tree, fun alike => Tree.unknownName.inj alike.tree⟩
  | succ depth ih =>
    constructor
    · intro t t' alike
      rcases i.type_readings_succ depth t with ⟨slot, n, rfl, node, reads⟩ | reads <;>
        rcases i.type_readings_succ depth t' with ⟨slot', n', rfl, node', reads'⟩ | reads' <;>
        rw [reads, reads'] at alike
      · rw [slot_eq_of_typeNode? node (ih.typeNode alike ▸ node')]
      · exact absurd alike.tree (tree_typeNode_ne_leaf n t')
      · exact absurd alike.tree.symm (tree_typeNode_ne_leaf n' t)
      · exact leaf_injective alike.tree
    · intro n n' alike
      simp only [readings] at alike
      split at alike <;> split at alike
      · exact Tree.unknownName.inj alike.tree
      · exact absurd alike.tree.symm (tree_nameNode_ne_unknown _ n)
      · exact absurd alike.tree (tree_nameNode_ne_unknown _ n')
      · rename_i node _ _ node'
        exact eq_of_nameNode? node (ih.nameNode alike ▸ node')

theorem eq_of_tree_unfold {p : Part} {h h' : p.Handle} (grounded : (i.unfold p h).Grounded i)
    (grounded' : (i.unfold p h').Grounded i)
    (same : (i.unfold p h).tree = (i.unfold p h').tree) : h = h' :=
  (i.faithful_readings _).part ⟨grounded, grounded', same⟩

end Respell.Interner

import Respell.Proofs.Growth

/-! Canonical handles. A part is grounded when the interner gave out all its atoms and lists; in
a store a grounded handle is the only one with its tree, because interning the tree finds every node on the
way up. Main statements: interning the tree of a grounded handle gives the handle back and changes
nothing (`intern_tree_unfold`), and grounded handles with equal trees are equal
(`eq_of_tree_unfold`). -/
namespace Respell

namespace Interner

variable {i j : Interner}

def KnowsTypeList (i : Interner) (list : TypeListId) : Prop :=
  ∃ types, i.node? list.slot = some (.typeList types)

def KnowsNameList (i : Interner) (list : NameListId) : Prop :=
  ∃ names, i.node? list.slot = some (.nameList names)

theorem KnowsTypeList.extend {list : TypeListId} (h : i.KnowsTypeList list) (e : i.Extends j) :
    j.KnowsTypeList list := by
  obtain ⟨types, h⟩ := h
  exact ⟨types, e.nodes h⟩

theorem KnowsNameList.extend {list : NameListId} (h : i.KnowsNameList list) (e : i.Extends j) :
    j.KnowsNameList list := by
  obtain ⟨names, h⟩ := h
  exact ⟨names, e.nodes h⟩

end Interner

instance : Coe Store Interner := ⟨Store.toInterner⟩

namespace Unfolding

/-- The interner gave out every atom and every list in the unfolding. -/
def Grounded (i : Interner) : {p : Part} → Unfolding p → Prop
  | _, undefined | _, void | _, integer _ | _, float _ => True
  | _, pointer element | _, reference element | _, array element _ => element.Grounded i
  | _, memberPointer owner element => owner.Grounded i ∧ element.Grounded i
  | _, named _ name => name.Grounded i
  | _, function name result arguments _ =>
    name.Grounded i ∧ result.Grounded i ∧ arguments.Grounded i
  | _, shapeless _ | _, declared _ _ | _, unknown _ => True
  | _, qual type _ => type.Grounded i
  | _, identifier atom text | _, destructor atom text => i.texts.text? atom = some text
  | _, qualified base member => base.Grounded i ∧ member.Grounded i
  | _, template atom text list args =>
    i.texts.text? atom = some text ∧ i.KnowsTypeList list ∧ args.Grounded i
  | _, operator _ => True
  | _, conversion target => target.Grounded i
  | _, selector list parts _ => i.KnowsNameList list ∧ parts.Grounded i
  | _, unknownName _ | _, noName => True
  | _, justName name => name.Grounded i
  | _, noTypes | _, noNames | _, noArguments => True
  | _, consType first rest => first.Grounded i ∧ rest.Grounded i
  | _, consName first rest => first.Grounded i ∧ rest.Grounded i
  | _, consArgument name type defaultValue _ rest =>
    name.Grounded i ∧ type.Grounded i ∧
      (∀ d ∈ defaultValue, i.texts.text? d.1 = some d.2) ∧ rest.Grounded i

-- The equations are made here, once for the many proofs that ask for them.
attribute [local simp] Grounded

theorem Grounded.extend {i j : Interner} (e : i.Extends j) {p : Part} {u : Unfolding p}
    (grounded : u.Grounded i) : u.Grounded j := by
  induction u with
  | undefined | void | integer | float | shapeless | declared | unknown => trivial
  | operator | unknownName | noName | noTypes | noNames | noArguments => trivial
  | pointer _ ih | reference _ ih | array _ _ ih | named _ _ ih | qual _ _ ih => exact ih grounded
  | conversion _ ih | justName _ ih => exact ih grounded
  | identifier | destructor => exact e.texts grounded
  | memberPointer _ _ ihFirst ihSecond | qualified _ _ ihFirst ihSecond =>
    exact ⟨ihFirst grounded.1, ihSecond grounded.2⟩
  | consType _ _ ihFirst ihSecond | consName _ _ ihFirst ihSecond =>
    exact ⟨ihFirst grounded.1, ihSecond grounded.2⟩
  | function _ _ _ _ ihName ihResult ihArguments =>
    obtain ⟨name, result, arguments⟩ := grounded
    exact ⟨ihName name, ihResult result, ihArguments arguments⟩
  | template _ _ _ _ ih =>
    obtain ⟨text, known, args⟩ := grounded
    exact ⟨e.texts text, known.extend e, ih args⟩
  | selector _ _ _ ih => exact ⟨grounded.1.extend e, ih grounded.2⟩
  | consArgument _ _ _ _ _ ihName ihType ihRest =>
    obtain ⟨name, type, texts, rest⟩ := grounded
    exact ⟨ihName name, ihType type, fun d hd => e.texts (texts d hd), ihRest rest⟩

end Unfolding

namespace Store

open Interner (typeList nameList)

variable {s : Store}

theorem internType_of_typeNode? {slot : Slot} {n : TypeNode} (h : s.typeNode? slot = some n) :
    internType n s = (.stored slot, s) := by
  simp only [internType, internNode_of_node? (node?_of_typeNode? h)]

theorem internName_of_nameNode? {name : NameId} {n : NameNode} (h : s.nameNode? name = some n) :
    internName n s = (name, s) := by
  simp only [internName, internNode_of_node? (node?_of_nameNode? h)]

theorem internTypeList_of_knows {list : TypeListId} (h : s.KnowsTypeList list) :
    internTypeList (s.typeList list) s = (list, s) := by
  obtain ⟨types, h⟩ := h
  have same : s.typeList list = types := by simp only [typeList, h]
  simp only [internTypeList, same, internNode_of_node? h]

theorem internNameList_of_knows {list : NameListId} (h : s.KnowsNameList list) :
    internNameList (s.nameList list) s = (list, s) := by
  obtain ⟨names, h⟩ := h
  have same : s.nameList list = names := by simp only [nameList, h]
  simp only [internNameList, same, internNode_of_node? h]

theorem internSignature_of_signature? {signature : SignatureId} {f : Signature}
    (h : s.signature? signature = some f) : internSignature f s = (signature, s) := by
  simp only [internSignature, internNode_of_node? (node?_of_signature? h)]

/-- Interning the tree of a grounded handle gives the handle back and leaves the store as it is. -/
theorem intern_tree_unfold (p : Part) (h : p.Handle) (grounded : (s.unfold p h).Grounded s) :
    (s.unfold p h).tree.intern s = (h, s) := by
  -- Every part gives its own handle back, so the node that is interned last is the node of `h`.
  induction p, h using s.part_induction with
  | undefined | void | reserved | noName | noTypes | noNames | noArguments =>
    simp [Unfolding.tree, Tree.intern, pure_eq]
  | unknown slot node =>
    simp [unfold_of_typeNode?_eq_none node, Unfolding.tree, Tree.intern, pure_eq]
  | unknownName n node =>
    simp [unfold_of_nameNode?_eq_none node, Unfolding.tree, Tree.intern, pure_eq]
  | integer slot kind node | float slot kind node | declared slot shape symbol node =>
    rw [unfold_of_typeNode? node]
    exact internType_of_typeNode? node
  | pointer slot element node ih | reference slot element node ih
  | array slot element size node ih | named slot name node ih =>
    rw [unfold_of_typeNode? node] at grounded ⊢
    simp only [unfoldNode, Unfolding.tree, Tree.intern, bind_eq (ih grounded)]
    exact internType_of_typeNode? node
  | memberPointer slot owner element node ihOwner ihElement =>
    rw [unfold_of_typeNode? node] at grounded ⊢
    obtain ⟨owned, pointed⟩ := grounded
    simp only [unfoldNode, Unfolding.tree, Tree.intern, bind_eq (ihOwner owned),
      bind_eq (ihElement pointed)]
    exact internType_of_typeNode? node
  | shapeless slot signature node shape =>
    rw [unfold_of_typeNode? node]
    simp only [unfoldNode, shape, Unfolding.tree, Tree.intern]
    exact internType_of_typeNode? node
  | function slot signature node f shape ihName ihResult ihArguments =>
    rw [unfold_of_typeNode? node] at grounded ⊢
    simp only [unfoldNode, shape, Unfolding.tree, Tree.intern] at grounded ⊢
    obtain ⟨name, result, arguments⟩ := grounded
    rw [bind_eq (ihName name), bind_eq (ihResult result), bind_eq (ihArguments arguments)]
    rw [functionType, bind_eq (internSignature_of_signature? shape)]
    exact internType_of_typeNode? node
  | qual t ih =>
    rw [unfold_qual] at grounded ⊢
    simp only [Unfolding.tree, Tree.intern, bind_eq (ih grounded)]
    rfl
  | identifier atom n node =>
    rw [unfold_of_nameNode? node] at grounded ⊢
    simp only [unfoldName, Unfolding.tree, Tree.intern, identifierName,
      bind_eq (internText_of_text? grounded)]
    exact internName_of_nameNode? node
  | destructor atom n node =>
    rw [unfold_of_nameNode? node] at grounded ⊢
    simp only [unfoldName, Unfolding.tree, Tree.intern, bind_eq (internText_of_text? grounded)]
    exact internName_of_nameNode? node
  | qualified base member n node ihBase ihMember =>
    rw [unfold_of_nameNode? node] at grounded ⊢
    obtain ⟨outer, inner⟩ := grounded
    simp only [unfoldName, Unfolding.tree, Tree.intern, bind_eq (ihBase outer),
      bind_eq (ihMember inner)]
    exact internName_of_nameNode? node
  | template atom args n node ih =>
    rw [unfold_of_nameNode? node] at grounded ⊢
    obtain ⟨text, known, parts⟩ := grounded
    simp only [unfoldName, Unfolding.tree, Tree.intern, templateName,
      bind_eq (internText_of_text? text), bind_eq (ih parts),
      bind_eq (internTypeList_of_knows known)]
    exact internName_of_nameNode? node
  | operator kind n node =>
    rw [unfold_of_nameNode? node]
    exact internName_of_nameNode? node
  | conversion target n node ih =>
    rw [unfold_of_nameNode? node] at grounded ⊢
    simp only [unfoldName, Unfolding.tree, Tree.intern, bind_eq (ih grounded)]
    exact internName_of_nameNode? node
  | selector parts hasArguments n node ih =>
    rw [unfold_of_nameNode? node] at grounded ⊢
    obtain ⟨known, grounded⟩ := grounded
    simp only [unfoldName, Unfolding.tree, Tree.intern, selectorName, bind_eq (ih grounded),
      bind_eq (internNameList_of_knows known)]
    exact internName_of_nameNode? node
  | justName n ih =>
    rw [unfold_justName] at grounded ⊢
    simp only [Unfolding.tree, Tree.intern, bind_eq (ih grounded)]
    rfl
  | consType first rest ihFirst ihRest =>
    rw [unfold_consType] at grounded ⊢
    simp only [Unfolding.tree, Tree.intern, bind_eq (ihFirst grounded.1), bind_eq (ihRest grounded.2)]
    rfl
  | consName first rest ihFirst ihRest =>
    rw [unfold_consName] at grounded ⊢
    simp only [Unfolding.tree, Tree.intern, bind_eq (ihFirst grounded.1), bind_eq (ihRest grounded.2)]
    rfl
  | consArgument a rest ihName ihType ihRest =>
    rw [unfold_consArgument] at grounded ⊢
    obtain ⟨name, type, texts, others⟩ := grounded
    obtain ⟨named, typed, _ | d, storage⟩ := a
    · simp only [Unfolding.tree, Tree.intern, bind_eq (ihName name), bind_eq (ihType type),
        Option.map_none, pure_bind, bind_eq (ihRest others)]
      rfl
    · have known : s.texts.text? d = some (s.text d) := texts (d, s.text d) rfl
      simp only [Unfolding.tree, Tree.intern, bind_eq (ihName name), bind_eq (ihType type),
        Option.map_some, bind_eq (internText_of_text? known), pure_bind,
        bind_eq (ihRest others)]
      rfl

theorem eq_of_tree_unfold {p : Part} {h h' : p.Handle} (grounded : (s.unfold p h).Grounded s)
    (grounded' : (s.unfold p h').Grounded s)
    (same : (s.unfold p h).tree = (s.unfold p h').tree) : h = h' := by
  have one := intern_tree_unfold p h grounded
  have other := intern_tree_unfold p h' grounded'
  rw [same, other] at one
  exact (Prod.mk.inj one).1.symm

end Store
end Respell

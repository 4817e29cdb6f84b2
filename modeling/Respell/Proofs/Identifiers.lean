import Mathlib.Data.Finset.Union
import Respell.Proofs.Unmatched

/-! The identifiers of a part: the names of its named types that are single identifiers, wherever
they occur. Main statements: substituting for identifiers replaces each identifier by those of its
answer (`identifiers_substitute`), the identifiers of a grounded handle are those of its tree
(`identifiers_unfold`), and where no identifier of a bare part satisfies what other names do not
either, no name does (`everywhere_of_identifiers`). -/
namespace Respell

open Store

namespace Tree

/-- The text of a name that is a single identifier. -/
def single : Tree .name → Finset String
  | identifier text => {text}
  | _ => ∅

/-- The single identifiers that named types in the tree are over. -/
def identifiers : {p : Part} → Tree p → Finset String
  | _, undefined | _, void | _, integer _ | _, float _ => ∅
  | _, pointer element | _, reference element | _, array element _ => element.identifiers
  | _, memberPointer owner element => owner.identifiers ∪ element.identifiers
  | _, named name => name.single ∪ name.identifiers
  | _, function name result arguments _ =>
    name.identifiers ∪ (result.identifiers ∪ arguments.identifiers)
  | _, shapeless _ | _, declared _ _ | _, unknown _ => ∅
  | _, qual type _ => type.identifiers
  | _, identifier _ | _, destructor _ | _, operator _ => ∅
  | _, qualified base member => base.identifiers ∪ member.identifiers
  | _, template _ args => args.identifiers
  | _, conversion target => target.identifiers
  | _, selector parts _ => parts.identifiers
  | _, unknownName _ | _, noName => ∅
  | _, justName name => name.identifiers
  | _, noTypes | _, noNames | _, noArguments => ∅
  | _, consType first rest => first.identifiers ∪ rest.identifiers
  | _, consName first rest => first.identifiers ∪ rest.identifiers
  | _, consArgument name type _ _ rest =>
    name.identifiers ∪ (type.identifiers ∪ rest.identifiers)

/-- No position of the tree qualifies the absence of a type. -/
def Bare : {p : Part} → Tree p → Prop
  | _, undefined | _, void | _, integer _ | _, float _ => True
  | _, pointer element | _, reference element | _, array element _ => element.Bare
  | _, memberPointer owner element => owner.Bare ∧ element.Bare
  | _, named name => name.Bare
  | _, function name result arguments _ => name.Bare ∧ result.Bare ∧ arguments.Bare
  | _, shapeless _ | _, declared _ _ | _, unknown _ => True
  | _, qual type qualifiers => (type = undefined → qualifiers = .none) ∧ type.Bare
  | _, identifier _ | _, destructor _ | _, operator _ => True
  | _, qualified base member => base.Bare ∧ member.Bare
  | _, template _ args => args.Bare
  | _, conversion target => target.Bare
  | _, selector parts _ => parts.Bare
  | _, unknownName _ | _, noName => True
  | _, justName name => name.Bare
  | _, noTypes | _, noNames | _, noArguments => True
  | _, consType first rest => first.Bare ∧ rest.Bare
  | _, consName first rest => first.Bare ∧ rest.Bare
  | _, consArgument name type _ _ rest => name.Bare ∧ type.Bare ∧ rest.Bare

@[simp] theorem identifiers_qualify (t : Tree .qualified) (more : Qualifiers) :
    (t.qualify more).identifiers = t.identifiers := by
  cases t with
  | qual t own => cases t <;> rfl

theorem Bare.qualify {t : Tree .qualified} (bare : t.Bare) (more : Qualifiers) :
    (t.qualify more).Bare := by
  cases t with
  | qual t own =>
    by_cases absent : t = .undefined
    · subst absent
      exact ⟨fun _ => rfl, trivial⟩
    · rw [qualify_of_ne absent]
      exact ⟨fun same => absurd same absent, bare.2⟩

/-- Substituting for identifiers leaves of each identifier that is answered those of its answer, and
each other identifier as it is. -/
theorem identifiers_substitute (f : String → Option (Tree .qualified)) {p : Part} (t : Tree p) :
    (t.substitute (forIdentifiers f)).identifiers =
      t.identifiers.biUnion fun text => (f text).elim {text} identifiers := by
  induction t with
  | undefined | void | integer | float | shapeless | declared | unknown => rfl
  | identifier | destructor | operator | unknownName => rfl
  | noName | noTypes | noNames | noArguments => rfl
  | pointer _ ih | reference _ ih | array _ _ ih => exact ih
  | template _ _ ih | conversion _ ih | selector _ _ ih | justName _ ih => exact ih
  | memberPointer _ _ ihFirst ihRest | qualified _ _ ihFirst ihRest
  | consType _ _ ihFirst ihRest | consName _ _ ihFirst ihRest =>
    simp only [substitute, identifiers, ihFirst, ihRest, Finset.union_biUnion]
  | function _ _ _ _ ihName ihResult ihArguments =>
    simp only [substitute, identifiers, ihName, ihResult, ihArguments, Finset.union_biUnion]
  | consArgument _ _ _ _ _ ihName ihType ihRest =>
    simp only [substitute, identifiers, ihName, ihType, ihRest, Finset.union_biUnion]
  | qual t own ih => simpa only [substitute, identifiers, identifiers_qualify] using ih
  | named name ih =>
    cases name with
    | identifier text =>
      simp only [substitute, forIdentifiers, identifiers, single, Finset.union_empty,
        Finset.singleton_biUnion]
      cases f text <;> rfl
    | _ =>
      simp only [substitute, forIdentifiers, Option.getD_none, identifiers, single,
        Finset.empty_union] at ih ⊢
      exact ih

/-- Rebuilding leaves the absence of a type bare everywhere; only an answer can qualify it. -/
theorem bare_substitute {answer : Tree .name → Option (Tree .qualified)}
    (answers : ∀ name tree, answer name = some tree → tree.Bare) {p : Part} (t : Tree p) :
    (t.substitute answer).Bare := by
  induction t with
  | undefined | void | integer | float | shapeless | declared | unknown => simp [Bare]
  | identifier | destructor | operator | unknownName => trivial
  | noName | noTypes | noNames | noArguments => trivial
  | pointer _ ih | reference _ ih | array _ _ ih => exact ⟨by simp, ih⟩
  | template _ _ ih | conversion _ ih | selector _ _ ih | justName _ ih => exact ih
  | memberPointer _ _ ihFirst ihRest => exact ⟨by simp, ihFirst, ihRest⟩
  | qualified _ _ ihFirst ihRest | consType _ _ ihFirst ihRest | consName _ _ ihFirst ihRest =>
    exact ⟨ihFirst, ihRest⟩
  | function _ _ _ _ ihName ihResult ihArguments => exact ⟨by simp, ihName, ihResult, ihArguments⟩
  | consArgument _ _ _ _ _ ihName ihType ihRest => exact ⟨ihName, ihType, ihRest⟩
  | qual t own ih => exact ih.qualify own
  | named name ih =>
    rw [substitute]
    cases answered : answer name with
    | none => exact ⟨by simp, ih⟩
    | some tree => exact answers name tree answered

end Tree

namespace Unfolding

def isIdentifier : Unfolding .name → Bool
  | identifier _ _ => true
  | _ => false

/-- The names, single identifiers all of them, that named types in the unfolding are over. -/
def identifiers : {p : Part} → Unfolding p → Finset NameId
  | _, undefined | _, void | _, integer _ | _, float _ => ∅
  | _, pointer element | _, reference element | _, array element _ => element.identifiers
  | _, memberPointer owner element => owner.identifiers ∪ element.identifiers
  | _, named handle name => (if name.isIdentifier then {handle} else ∅) ∪ name.identifiers
  | _, function name result arguments _ =>
    name.identifiers ∪ (result.identifiers ∪ arguments.identifiers)
  | _, shapeless _ | _, declared _ _ | _, unknown _ => ∅
  | _, qual type _ => type.identifiers
  | _, identifier _ _ | _, destructor _ _ | _, operator _ => ∅
  | _, qualified base member => base.identifiers ∪ member.identifiers
  | _, template _ _ _ args => args.identifiers
  | _, conversion target => target.identifiers
  | _, selector _ parts _ => parts.identifiers
  | _, unknownName _ | _, noName => ∅
  | _, justName name => name.identifiers
  | _, noTypes | _, noNames | _, noArguments => ∅
  | _, consType first rest => first.identifiers ∪ rest.identifiers
  | _, consName first rest => first.identifiers ∪ rest.identifiers
  | _, consArgument name type _ _ rest =>
    name.identifiers ∪ (type.identifiers ∪ rest.identifiers)

end Unfolding

variable {s : Store}

namespace Store

/-- The name that the store gives to a single identifier. -/
def nameSpelled (s : Store) (text : String) : NameId := ((Tree.identifier text).intern s).1

theorem single_unfold (name : NameId) (grounded : (s.unfold .name name).Grounded s) :
    (if (s.unfold .name name).isIdentifier then {name} else ∅) =
      (s.unfold .name name).tree.single.image s.nameSpelled := by
  cases node : s.nameNode? name with
  | none =>
    rw [unfold_of_nameNode?_eq_none node]
    rfl
  | some n =>
    have again := intern_tree_unfold .name name grounded
    rw [unfold_of_nameNode? node] at again ⊢
    cases n with
    | identifier atom =>
      rw [unfoldName, Unfolding.tree] at again
      simp only [unfoldName, Unfolding.isIdentifier, Unfolding.tree, Tree.single, nameSpelled,
        Finset.image_singleton, again, if_true]
    | _ => rfl

theorem identifiers_unfold (p : Part) (h : p.Handle) (grounded : (s.unfold p h).Grounded s) :
    (s.unfold p h).identifiers = (s.unfold p h).tree.identifiers.image s.nameSpelled := by
  induction p, h using s.part_induction with
  | undefined | void | reserved | noName | noTypes | noNames | noArguments =>
    simp [Unfolding.identifiers, Unfolding.tree, Tree.identifiers]
  | unknown slot node =>
    rw [unfold_of_typeNode?_eq_none node]
    rfl
  | unknownName n node =>
    rw [unfold_of_nameNode?_eq_none node]
    rfl
  | integer slot kind node | float slot kind node | declared slot shape symbol node =>
    rw [unfold_of_typeNode? node]
    rfl
  | shapeless slot signature node shape =>
    simp only [unfold_of_typeNode? node, unfoldNode, shape]
    rfl
  | identifier atom n node | destructor atom n node | operator kind n node =>
    rw [unfold_of_nameNode? node]
    rfl
  | pointer slot element node ih | reference slot element node ih
  | array slot element size node ih =>
    rw [unfold_of_typeNode? node] at grounded ⊢
    exact ih grounded
  | memberPointer slot owner element node ihOwner ihElement =>
    rw [unfold_of_typeNode? node] at grounded ⊢
    simp only [unfoldNode, Unfolding.identifiers, Unfolding.tree, Tree.identifiers,
      ihOwner grounded.1, ihElement grounded.2, Finset.image_union]
  | named slot name node ih =>
    rw [unfold_of_typeNode? node] at grounded ⊢
    simp only [unfoldNode, Unfolding.identifiers, Unfolding.tree, Tree.identifiers,
      single_unfold name grounded, ih grounded, Finset.image_union]
  | function slot signature node f shape ihName ihResult ihArguments =>
    rw [unfold_of_typeNode? node] at grounded ⊢
    simp only [unfoldNode, shape] at grounded ⊢
    obtain ⟨name, result, arguments⟩ := grounded
    simp only [Unfolding.identifiers, Unfolding.tree, Tree.identifiers, ihName name,
      ihResult result, ihArguments arguments, Finset.image_union]
  | qual t ih =>
    rw [unfold_qual] at grounded ⊢
    exact ih grounded
  | qualified base member n node ihBase ihMember =>
    rw [unfold_of_nameNode? node] at grounded ⊢
    simp only [unfoldName, Unfolding.identifiers, Unfolding.tree, Tree.identifiers,
      ihBase grounded.1, ihMember grounded.2, Finset.image_union]
  | template atom args n node ih =>
    rw [unfold_of_nameNode? node] at grounded ⊢
    exact ih grounded.2.2
  | conversion target n node ih =>
    rw [unfold_of_nameNode? node] at grounded ⊢
    exact ih grounded
  | selector parts hasArguments n node ih =>
    rw [unfold_of_nameNode? node] at grounded ⊢
    exact ih grounded.2
  | justName n ih =>
    rw [unfold_justName] at grounded ⊢
    exact ih grounded
  | consType first rest ihFirst ihRest =>
    rw [unfold_consType] at grounded ⊢
    simp only [Unfolding.identifiers, Unfolding.tree, Tree.identifiers, ihFirst grounded.1,
      ihRest grounded.2, Finset.image_union]
  | consName first rest ihFirst ihRest =>
    rw [unfold_consName] at grounded ⊢
    simp only [Unfolding.identifiers, Unfolding.tree, Tree.identifiers, ihFirst grounded.1,
      ihRest grounded.2, Finset.image_union]
  | consArgument a rest ihName ihType ihRest =>
    rw [unfold_consArgument] at grounded ⊢
    obtain ⟨name, type, -, others⟩ := grounded
    simp only [Unfolding.identifiers, Unfolding.tree, Tree.identifiers, ihName name, ihType type,
      ihRest others, Finset.image_union]

theorem everywhere_of_identifiers {P : NameId → Prop}
    (others : ∀ n, (∀ atom, s.nameNode? n ≠ some (.identifier atom)) → P n) (p : Part) (h : p.Handle)
    (bare : (s.unfold p h).tree.Bare) (inside : ∀ n ∈ (s.unfold p h).identifiers, P n) :
    (s.unfold p h).Everywhere P Unfolding.Bare := by
  induction p, h using s.part_induction with
  | undefined | void | reserved | noName | noTypes | noNames | noArguments =>
    simp [Unfolding.Everywhere]
  | unknown slot node =>
    rw [unfold_of_typeNode?_eq_none node]
    trivial
  | unknownName n node =>
    rw [unfold_of_nameNode?_eq_none node]
    trivial
  | integer slot kind node | float slot kind node | declared slot shape symbol node =>
    rw [unfold_of_typeNode? node]
    trivial
  | shapeless slot signature node shape =>
    simp only [unfold_of_typeNode? node, unfoldNode, shape]
    trivial
  | identifier atom n node | destructor atom n node | operator kind n node =>
    rw [unfold_of_nameNode? node]
    trivial
  | pointer slot element node ih | reference slot element node ih
  | array slot element size node ih =>
    rw [unfold_of_typeNode? node] at bare inside ⊢
    exact ih bare inside
  | memberPointer slot owner element node ihOwner ihElement =>
    rw [unfold_of_typeNode? node] at bare inside ⊢
    simp only [unfoldNode, Unfolding.identifiers, Finset.forall_mem_union] at inside
    exact ⟨ihOwner bare.1 inside.1, ihElement bare.2 inside.2⟩
  | named slot name node ih =>
    rw [unfold_of_typeNode? node] at bare inside ⊢
    simp only [unfoldNode, Unfolding.identifiers, Finset.forall_mem_union] at inside
    refine ⟨?_, ih bare inside.2⟩
    by_cases single : ∃ atom, s.nameNode? name = some (.identifier atom)
    · obtain ⟨atom, spelled⟩ := single
      refine inside.1 name ?_
      rw [unfold_of_nameNode? spelled]
      exact Finset.mem_singleton_self name
    · exact others name (not_exists.mp single)
  | function slot signature node f shape ihName ihResult ihArguments =>
    rw [unfold_of_typeNode? node] at bare inside ⊢
    simp only [unfoldNode, shape] at bare inside ⊢
    simp only [Unfolding.identifiers, Finset.forall_mem_union] at inside
    exact ⟨ihName bare.1 inside.1, ihResult bare.2.1 inside.2.1, ihArguments bare.2.2 inside.2.2⟩
  | qual t ih =>
    rw [unfold_qual] at bare inside ⊢
    refine ⟨fun absent => bare.1 ?_, ih bare.2 inside⟩
    rw [absent, Unfolding.tree]
  | qualified base member n node ihBase ihMember =>
    rw [unfold_of_nameNode? node] at bare inside ⊢
    simp only [unfoldName, Unfolding.identifiers, Finset.forall_mem_union] at inside
    exact ⟨ihBase bare.1 inside.1, ihMember bare.2 inside.2⟩
  | template atom args n node ih | conversion target n node ih
  | selector parts hasArguments n node ih =>
    rw [unfold_of_nameNode? node] at bare inside ⊢
    exact ih bare inside
  | justName n ih =>
    rw [unfold_justName] at bare inside ⊢
    exact ih bare inside
  | consType first rest ihFirst ihRest =>
    rw [unfold_consType] at bare inside ⊢
    simp only [Unfolding.identifiers, Finset.forall_mem_union] at inside
    exact ⟨ihFirst bare.1 inside.1, ihRest bare.2 inside.2⟩
  | consName first rest ihFirst ihRest =>
    rw [unfold_consName] at bare inside ⊢
    simp only [Unfolding.identifiers, Finset.forall_mem_union] at inside
    exact ⟨ihFirst bare.1 inside.1, ihRest bare.2 inside.2⟩
  | consArgument a rest ihName ihType ihRest =>
    rw [unfold_consArgument] at bare inside ⊢
    simp only [Unfolding.identifiers, Finset.forall_mem_union] at inside
    exact ⟨ihName bare.1 inside.1, ihType bare.2.1 inside.2.1, ihRest bare.2.2 inside.2.2⟩

end Store
end Respell

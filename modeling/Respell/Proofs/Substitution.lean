import Respell.Proofs.Canonicity

/-! Simultaneous substitution. A substitution replaces the named types that it answers by their
answers, which are taken as they are, and maps everything else part by part. On an unfolding it is
asked for the handles of names, on a tree for their trees. Main statements: for grounded parts the
two agree (`substitute_tree`), and substituting twice for single identifiers is substituting once
(`substitute_substitute`). -/
namespace Respell

open Store

abbrev Part.rewritten : Part → Part
  | .type => .qualified
  | .qualified => .qualified
  | .name => .name
  | .optionalName => .optionalName
  | .types => .types
  | .names => .names
  | .arguments => .arguments

/-- The tree with the qualifiers of a position. The absence of a type has none. -/
def Tree.qualify : Tree .qualified → Qualifiers → Tree .qualified
  | qual undefined _, _ => qual undefined .none
  | qual type own, more => qual type (own ∪ more)

/-- Simultaneous substitution: named types whose names are answered are replaced, and nothing inside
an answer is looked at again. -/
@[simp]
def Unfolding.substitute (answer : NameId → Option (Tree .qualified)) :
    {p : Part} → Unfolding p → Tree p.rewritten
  | _, undefined => .qual .undefined .none
  | _, void => .qual .void .none
  | _, integer kind => .qual (.integer kind) .none
  | _, float kind => .qual (.float kind) .none
  | _, pointer element => .qual (.pointer (element.substitute answer)) .none
  | _, reference element => .qual (.reference (element.substitute answer)) .none
  | _, array element size => .qual (.array (element.substitute answer) size) .none
  | _, memberPointer owner element =>
    .qual (.memberPointer (owner.substitute answer) (element.substitute answer)) .none
  | _, named handle name =>
    (answer handle).getD (.qual (.named (name.substitute answer)) .none)
  | _, function name result arguments attributes =>
    .qual (.function (name.substitute answer) (result.substitute answer)
      (arguments.substitute answer) attributes) .none
  | _, shapeless signature => .qual (.shapeless signature) .none
  | _, declared shape symbol => .qual (.declared shape symbol) .none
  | _, unknown type => .qual (.unknown type) .none
  | _, qual type qualifiers => (type.substitute answer).qualify qualifiers
  | _, identifier _ text => .identifier text
  | _, qualified base member => .qualified (base.substitute answer) (member.substitute answer)
  | _, template _ text _ args => .template text (args.substitute answer)
  | _, destructor _ text => .destructor text
  | _, operator kind => .operator kind
  | _, conversion target => .conversion (target.substitute answer)
  | _, selector _ parts hasArguments => .selector (parts.substitute answer) hasArguments
  | _, unknownName name => .unknownName name
  | _, noName => .noName
  | _, justName name => .justName (name.substitute answer)
  | _, noTypes => .noTypes
  | _, consType first rest => .consType (first.substitute answer) (rest.substitute answer)
  | _, noNames => .noNames
  | _, consName first rest => .consName (first.substitute answer) (rest.substitute answer)
  | _, noArguments => .noArguments
  | _, consArgument name type defaultValue storage rest =>
    .consArgument (name.substitute answer) (type.substitute answer) (defaultValue.map (·.2)) storage
      (rest.substitute answer)

namespace Tree

@[simp]
def substitute (answer : Tree .name → Option (Tree .qualified)) :
    {p : Part} → Tree p → Tree p.rewritten
  | _, undefined => .qual .undefined .none
  | _, void => .qual .void .none
  | _, integer kind => .qual (.integer kind) .none
  | _, float kind => .qual (.float kind) .none
  | _, pointer element => .qual (.pointer (element.substitute answer)) .none
  | _, reference element => .qual (.reference (element.substitute answer)) .none
  | _, array element size => .qual (.array (element.substitute answer) size) .none
  | _, memberPointer owner element =>
    .qual (.memberPointer (owner.substitute answer) (element.substitute answer)) .none
  | _, named name => (answer name).getD (.qual (.named (name.substitute answer)) .none)
  | _, function name result arguments attributes =>
    .qual (.function (name.substitute answer) (result.substitute answer)
      (arguments.substitute answer) attributes) .none
  | _, shapeless signature => .qual (.shapeless signature) .none
  | _, declared shape symbol => .qual (.declared shape symbol) .none
  | _, unknown type => .qual (.unknown type) .none
  | _, qual type qualifiers => (type.substitute answer).qualify qualifiers
  | _, identifier text => .identifier text
  | _, qualified base member => .qualified (base.substitute answer) (member.substitute answer)
  | _, template text args => .template text (args.substitute answer)
  | _, destructor text => .destructor text
  | _, operator kind => .operator kind
  | _, conversion target => .conversion (target.substitute answer)
  | _, selector parts hasArguments => .selector (parts.substitute answer) hasArguments
  | _, unknownName name => .unknownName name
  | _, noName => .noName
  | _, justName name => .justName (name.substitute answer)
  | _, noTypes => .noTypes
  | _, consType first rest => .consType (first.substitute answer) (rest.substitute answer)
  | _, noNames => .noNames
  | _, consName first rest => .consName (first.substitute answer) (rest.substitute answer)
  | _, noArguments => .noArguments
  | _, consArgument name type defaultValue storage rest =>
    .consArgument (name.substitute answer) (type.substitute answer) defaultValue storage
      (rest.substitute answer)

end Tree

/-- For a grounded part, answers by handle and answers by tree come to the same. -/
theorem substitute_tree {s : Store} {answer : NameId → Option (Tree .qualified)}
    {treeAnswer : Tree .name → Option (Tree .qualified)}
    (agree : ∀ n : NameId, (s.unfold .name n).Grounded s → answer n = treeAnswer (s.nameTree n))
    (p : Part) (h : p.Handle) (grounded : (s.unfold p h).Grounded s) :
    (s.unfold p h).substitute answer = (s.unfold p h).tree.substitute treeAnswer := by
  induction p, h using s.part_induction with
  | undefined | void | reserved | noName | noTypes | noNames | noArguments =>
    simp [Unfolding.tree]
  | unknown slot node =>
    simp only [unfold_of_typeNode?_eq_none node, Unfolding.substitute, Unfolding.tree,
      Tree.substitute]
  | unknownName n node =>
    simp only [unfold_of_nameNode?_eq_none node, Unfolding.substitute, Unfolding.tree,
      Tree.substitute]
  | integer slot kind node | float slot kind node | declared slot shape symbol node =>
    rw [unfold_of_typeNode? node]
    rfl
  | shapeless slot signature node shape =>
    simp only [unfold_of_typeNode? node, unfoldNode, shape, Unfolding.substitute, Unfolding.tree,
      Tree.substitute]
  | pointer slot element node ih | reference slot element node ih
  | array slot element size node ih =>
    rw [unfold_of_typeNode? node] at grounded ⊢
    simp only [unfoldNode, Unfolding.substitute, Unfolding.tree, Tree.substitute, ih grounded]
  | memberPointer slot owner element node ihOwner ihElement =>
    rw [unfold_of_typeNode? node] at grounded ⊢
    simp only [unfoldNode, Unfolding.substitute, Unfolding.tree, Tree.substitute,
      ihOwner grounded.1, ihElement grounded.2]
  | named slot name node ih =>
    rw [unfold_of_typeNode? node] at grounded ⊢
    have asked : treeAnswer (s.unfold .name name).tree = answer name := by
      rw [tree_unfold]
      exact (agree name grounded).symm
    simp only [unfoldNode, Unfolding.substitute, Unfolding.tree, Tree.substitute, ih grounded, asked]
  | function slot signature node f shape ihName ihResult ihArguments =>
    rw [unfold_of_typeNode? node] at grounded ⊢
    simp only [unfoldNode, shape] at grounded ⊢
    obtain ⟨name, result, arguments⟩ := grounded
    simp only [Unfolding.substitute, Unfolding.tree, Tree.substitute, ihName name, ihResult result,
      ihArguments arguments]
  | qual t ih =>
    rw [unfold_qual] at grounded ⊢
    simp only [Unfolding.substitute, Unfolding.tree, Tree.substitute, ih grounded]
  | identifier atom n node | destructor atom n node | operator kind n node =>
    rw [unfold_of_nameNode? node]
    rfl
  | qualified base member n node ihBase ihMember =>
    rw [unfold_of_nameNode? node] at grounded ⊢
    simp only [unfoldName, Unfolding.substitute, Unfolding.tree, Tree.substitute,
      ihBase grounded.1, ihMember grounded.2]
  | template atom args n node ih =>
    rw [unfold_of_nameNode? node] at grounded ⊢
    simp only [unfoldName, Unfolding.substitute, Unfolding.tree, Tree.substitute, ih grounded.2.2]
  | conversion target n node ih =>
    rw [unfold_of_nameNode? node] at grounded ⊢
    simp only [unfoldName, Unfolding.substitute, Unfolding.tree, Tree.substitute, ih grounded]
  | selector parts hasArguments n node ih =>
    rw [unfold_of_nameNode? node] at grounded ⊢
    simp only [unfoldName, Unfolding.substitute, Unfolding.tree, Tree.substitute, ih grounded.2]
  | justName n ih =>
    rw [unfold_justName] at grounded ⊢
    simp only [Unfolding.substitute, Unfolding.tree, Tree.substitute, ih grounded]
  | consType first rest ihFirst ihRest =>
    rw [unfold_consType] at grounded ⊢
    simp only [Unfolding.substitute, Unfolding.tree, Tree.substitute, ihFirst grounded.1,
      ihRest grounded.2]
  | consName first rest ihFirst ihRest =>
    rw [unfold_consName] at grounded ⊢
    simp only [Unfolding.substitute, Unfolding.tree, Tree.substitute, ihFirst grounded.1,
      ihRest grounded.2]
  | consArgument a rest ihName ihType ihRest =>
    rw [unfold_consArgument] at grounded ⊢
    obtain ⟨name, type, -, others⟩ := grounded
    simp only [Unfolding.substitute, Unfolding.tree, Tree.substitute, ihName name, ihType type,
      ihRest others]

/-! ### Twice and once -/

namespace Tree

def resubstitute (answer : Tree .name → Option (Tree .qualified)) :
    {p : Part} → Tree p.rewritten → Tree p.rewritten
  | .type, t => t.substitute answer
  | .qualified, t => t.substitute answer
  | .name, t => t.substitute answer
  | .optionalName, t => t.substitute answer
  | .types, t => t.substitute answer
  | .names, t => t.substitute answer
  | .arguments, t => t.substitute answer

def forIdentifiers (f : String → Option (Tree .qualified)) : Tree .name → Option (Tree .qualified)
  | identifier text => f text
  | _ => none

/-- What two substitutions for single identifiers, one after the other, answer together: the answer
of the first, if there is one, goes through the second. -/
def fuse (f g : String → Option (Tree .qualified)) (text : String) : Option (Tree .qualified) :=
  ((f text).map (substitute (forIdentifiers g))).or (g text)

theorem qualify_of_ne {t : Tree .type} (present : t ≠ .undefined) (own more : Qualifiers) :
    (qual t own).qualify more = qual t (own ∪ more) := by
  cases t <;> first | rfl | exact absurd rfl present

theorem qualify_none {t : Tree .qualified} (present : t.isUndefined = false) :
    t.qualify .none = t := by
  cases t with
  | qual t own =>
    rw [qualify_of_ne, Qualifiers.union_none]
    rintro rfl
    simp [isUndefined] at present

theorem qualify_qualify (t : Tree .qualified) (a b : Qualifiers) :
    (t.qualify a).qualify b = t.qualify (a ∪ b) := by
  cases t with
  | qual t own =>
    by_cases absent : t = .undefined
    · subst absent
      rfl
    · simp only [qualify_of_ne absent, Qualifiers.union_assoc]

theorem substitute_qualify (answer : Tree .name → Option (Tree .qualified)) (t : Tree .qualified)
    (a : Qualifiers) : (t.qualify a).substitute answer = (t.substitute answer).qualify a := by
  cases t with
  | qual t own =>
    by_cases absent : t = .undefined
    · subst absent
      rfl
    · simp only [qualify_of_ne absent, substitute, qualify_qualify]

theorem isUndefined_qualify (t : Tree .qualified) (a : Qualifiers) :
    (t.qualify a).isUndefined = t.isUndefined := by
  cases t with
  | qual t own =>
    by_cases absent : t = .undefined
    · subst absent
      rfl
    · rw [qualify_of_ne absent, isUndefined_of_ne absent, isUndefined_of_ne absent]

theorem isUndefined_substitute {answer : Tree .name → Option (Tree .qualified)}
    (present : ∀ name tree, answer name = some tree → tree.isUndefined = false)
    (t : Tree .qualified) : (t.substitute answer).isUndefined = t.isUndefined := by
  cases t with
  | qual t own =>
    rw [substitute, isUndefined_qualify]
    cases t with
    | named name =>
      rw [substitute]
      cases asked : answer name with
      | none => rfl
      | some tree => exact present name tree asked
    | _ => rfl

theorem substitute_substitute (f : String → Option (Tree .qualified))
    {g : String → Option (Tree .qualified)}
    (present : ∀ text tree, g text = some tree → tree.isUndefined = false) {p : Part} (t : Tree p) :
    (t.substitute (forIdentifiers f)).resubstitute (forIdentifiers g) =
      t.substitute (forIdentifiers (fuse f g)) := by
  -- Only a named type whose name is an identifier is answered, and rebuilding other names gives no
  -- new identifiers.
  induction t with
  | undefined | void | integer | float | shapeless | declared | unknown => rfl
  | identifier | destructor | operator | unknownName => rfl
  | noName | noTypes | noNames | noArguments => rfl
  | pointer _ ih | reference _ ih | array _ _ ih =>
    simp only [resubstitute] at ih
    simp only [substitute, resubstitute, ih, qualify, Qualifiers.union_none]
  | memberPointer _ _ ihOwner ihElement =>
    simp only [resubstitute] at ihOwner ihElement
    simp only [substitute, resubstitute, ihOwner, ihElement, qualify, Qualifiers.union_none]
  | function _ _ _ _ ihName ihResult ihArguments =>
    simp only [resubstitute] at ihName ihResult ihArguments
    simp only [substitute, resubstitute, ihName, ihResult, ihArguments, qualify,
      Qualifiers.union_none]
  | named name ih =>
    cases name with
    | identifier text =>
      simp only [substitute, resubstitute, forIdentifiers, fuse]
      cases f text with
      | some tree => rfl
      | none =>
        simp only [Option.getD_none, substitute, forIdentifiers]
        cases answer : g text with
        | none => rfl
        | some tree => exact qualify_none (present text tree answer)
    | _ =>
      simp only [resubstitute, substitute] at ih
      simp only [substitute, resubstitute, forIdentifiers, Option.getD_none, ih, qualify,
        Qualifiers.union_none]
  | qual t own ih =>
    simp only [resubstitute] at ih
    simp only [substitute, resubstitute, substitute_qualify, ih]
  | qualified _ _ ihFirst ihRest | consType _ _ ihFirst ihRest | consName _ _ ihFirst ihRest =>
    simp only [resubstitute] at ihFirst ihRest
    simp only [substitute, resubstitute, ihFirst, ihRest]
  | template _ _ ih | conversion _ ih | selector _ _ ih | justName _ ih =>
    simp only [resubstitute] at ih
    simp only [substitute, resubstitute, ih]
  | consArgument _ _ _ _ _ ihName ihType ihRest =>
    simp only [resubstitute] at ihName ihType ihRest
    simp only [substitute, resubstitute, ihName, ihType, ihRest]

end Tree
end Respell

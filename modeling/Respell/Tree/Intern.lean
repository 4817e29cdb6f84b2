import Respell.Tree

/-!
Entering trees into a store: the way back from a tree to a handle. Every part of the tree is
interned, the inner parts first and from left to right.
-/
namespace Respell

/-- What a store gives out for each kind of part. -/
abbrev Part.Handle : Part → Type
  | .type => TypeId
  | .qualified => QualType
  | .name => NameId
  | .optionalName => Option NameId
  | .types => List QualType
  | .names => List NameId
  | .arguments => List Argument

namespace Tree

open Store

/-- Interns a tree with all its parts. Leaves that no store knows keep their handles. -/
def intern : {p : Part} → Tree p → Storing p.Handle
  | _, undefined => pure TypeId.undefined
  | _, void => pure TypeId.void
  | _, integer kind => internType (.integer kind)
  | _, float kind => internType (.float kind)
  | _, pointer element => do
    let element ← element.intern
    internType (.pointer element)
  | _, reference element => do
    let element ← element.intern
    internType (.reference element)
  | _, array element size => do
    let element ← element.intern
    internType (.array element size)
  | _, memberPointer owner element => do
    let owner ← owner.intern
    let element ← element.intern
    internType (.memberPointer owner element)
  | _, named name => do
    let name ← name.intern
    internType (.named name)
  | _, function name result arguments attributes => do
    let name ← name.intern
    let result ← result.intern
    let arguments ← arguments.intern
    functionType { name, result, arguments, attributes }
  | _, shapeless signature => internType (.function signature)
  | _, declared shape symbol => internType (.declared shape symbol)
  | _, unknown type => pure type
  | _, qual type qualifiers => do
    let type ← type.intern
    pure (⟨type, qualifiers⟩ : QualType)
  | _, identifier text => identifierName text
  | _, qualified base member => do
    let base ← base.intern
    let member ← member.intern
    internName (.qualified base member)
  | _, template text args => do
    let atom ← internText text
    let args ← args.intern
    templateName atom args
  | _, destructor text => do
    let atom ← internText text
    internName (.destructor atom)
  | _, operator kind => internName (.operator kind)
  | _, conversion target => do
    let target ← target.intern
    internName (.conversion target)
  | _, selector parts hasArguments => do
    let parts ← parts.intern
    selectorName parts hasArguments
  | _, unknownName name => pure name
  | _, noName => pure (none : Option NameId)
  | _, justName name => do
    let name ← name.intern
    pure (some name)
  | _, noTypes => pure ([] : List QualType)
  | _, consType first rest => do
    let first ← first.intern
    let rest ← rest.intern
    pure ((first :: rest : List QualType))
  | _, noNames => pure ([] : List NameId)
  | _, consName first rest => do
    let first ← first.intern
    let rest ← rest.intern
    pure ((first :: rest : List NameId))
  | _, noArguments => pure ([] : List Argument)
  | _, consArgument name type defaultValue storage rest => do
    let name ← name.intern
    let type ← type.intern
    let defaultValue ← match defaultValue with
      | some text => do
        let atom ← internText text
        pure (some atom)
      | none => pure none
    let rest ← rest.intern
    pure ((⟨name, type, defaultValue, storage⟩ :: rest : List Argument))

end Tree
end Respell

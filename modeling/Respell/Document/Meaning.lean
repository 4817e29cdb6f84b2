import Respell.Document.Basic
import Respell.Text.Blank
import Respell.Text.Split

/-!
What documents mean. Names are checked and split, qualifiers become sets, declarations get their
default types, and the scope is found among the declarations. All that can be wrong with a document
that could be read is found here (`MeaningError`); what comes after cannot fail.
-/
namespace Respell

inductive ComponentError
  | empty
  | compound (text : String)
  deriving DecidableEq, Repr

inductive MeaningError
  | component (error : ComponentError)
  | spelledName (text : String) (error : ComponentError)
  | declarationName (text : String) (error : ComponentError)
  | repeatedScope (path : List String)
  | unknownScope (path : List String)
  | typeAndName
  | noSubject
  deriving DecidableEq, Repr

def ComponentError.message : ComponentError → String
  | empty => "empty name component"
  | compound text => "`" ++ text ++ "` must be a single name component"

def MeaningError.message : MeaningError → String
  | component error => error.message
  | spelledName text error => "invalid name `" ++ text ++ "`: " ++ error.message
  | declarationName text error => "invalid declaration name `" ++ text ++ "`: " ++ error.message
  | repeatedScope path => "scope `" ++ Text.joinPath path ++ "` is declared more than once"
  | unknownScope path => "scope `" ++ Text.joinPath path ++ "` is not declared"
  | typeAndName => "document must contain either `type` or `name`, not both"
  | noSubject => "document must contain a `type` or a `name`"

def component (text : List Char) : Except ComponentError String :=
  let text := Text.trim text
  if text.isEmpty then .error .empty
  else if Text.hasSeparator text then .error (.compound (String.ofList text))
  else .ok (String.ofList text)

def spelledPart (text : List Char) : Except ComponentError (Tree .name) :=
  match Text.trim text with
  | '~' :: text => (component text).map .destructor
  | text => (component text).map .identifier

def qualifyAll (base : Tree .name) : List (List Char) → Except ComponentError (Tree .name)
  | [] => .ok base
  | part :: rest => do
    let member ← spelledPart part
    qualifyAll (.qualified base member) rest

def spelledName (text : List Char) : Except ComponentError (Tree .name) :=
  match Text.splitPath text with
  | [] => .error .empty
  | part :: rest => do
    let base ← spelledPart part
    qualifyAll base rest

namespace Expr

def componentMeaning (text : String) : Except MeaningError String :=
  (component text.toList).mapError .component

def meaning : {p : Part} → Expr p → Except MeaningError (Tree p)
  | _, void => .ok .void
  | _, integer kind => .ok (.integer kind)
  | _, float kind => .ok (.float kind)
  | _, pointer element => do
    let element ← element.meaning
    pure (.pointer element)
  | _, reference element => do
    let element ← element.meaning
    pure (.reference element)
  | _, array element size => do
    let element ← element.meaning
    pure (.array element size)
  | _, memberPointer owner element => do
    let owner ← owner.meaning
    let element ← element.meaning
    pure (.memberPointer owner element)
  | _, named name => do
    let name ← name.meaning
    pure (.named name)
  | _, function name result arguments variadic const => do
    let name ← name.meaning
    let result ← result.meaning
    let arguments ← arguments.meaning
    pure (.function name result arguments { variadic, const })
  | _, qual type qualifiers => do
    let type ← type.meaning
    pure (.qual type (.ofList qualifiers))
  | _, spelled text => (spelledName text.toList).mapError (.spelledName text)
  | _, identifier text => do
    let text ← componentMeaning text
    pure (.identifier text)
  | _, qualified base member => do
    let base ← base.meaning
    let member ← member.meaning
    pure (.qualified base member)
  | _, template text args => do
    let text ← componentMeaning text
    let args ← args.meaning
    pure (.template text args)
  | _, destructor text => do
    let text ← componentMeaning text
    pure (.destructor text)
  | _, operator kind => .ok (.operator kind)
  | _, conversion target => do
    let target ← target.meaning
    pure (.conversion target)
  | _, selector parts hasArguments => do
    let parts ← parts.meaning
    pure (.selector parts hasArguments)
  | _, noName => .ok .noName
  | _, justName name => do
    let name ← name.meaning
    pure (.justName name)
  | _, noTypes => .ok .noTypes
  | _, consType first rest => do
    let first ← first.meaning
    let rest ← rest.meaning
    pure (.consType first rest)
  | _, noNames => .ok .noNames
  | _, consName first rest => do
    let first ← first.meaning
    let rest ← rest.meaning
    pure (.consName first rest)
  | _, noArguments => .ok .noArguments
  | _, consArgument name type defaultValue rest => do
    let name ← name.meaning
    let type ← type.meaning
    let rest ← rest.meaning
    pure (.consArgument name type defaultValue .none rest)

end Expr

structure BindingTree where
  name : Tree .name
  type : Tree .qualified
  deriving DecidableEq

structure DeclarationTree where
  name : String
  type : Tree .qualified
  deriving DecidableEq

def WrittenBinding.meaning (b : WrittenBinding) : Except MeaningError BindingTree := do
  let name ← b.name.meaning
  let type ← b.type.meaning
  pure ⟨name, type⟩

/-- What a written declaration means. One without a type stands for a type of its own name. -/
def WrittenDeclaration.meaning (d : WrittenDeclaration) : Except MeaningError DeclarationTree := do
  let name ← (component d.name.toList).mapError (.declarationName d.name)
  match d.type with
  | none => pure ⟨name, .qual (.named (.identifier name)) .none⟩
  | some type => do
    let type ← type.meaning
    pure ⟨name, type⟩

/-- What the declarations in the scope at the path `outer` mean, given the paths of the scopes that
are open ahead of them; the paths of those open after them come with it. No two declarations may
open scopes at one path. -/
def declarationsMeaning (outer : List String) : Forest WrittenDeclaration → List (List String) →
    Except MeaningError (Forest DeclarationTree × List (List String))
  | .empty, scopes => .ok (.empty, scopes)
  | .cons d members rest, scopes => do
    let root ← d.meaning
    if members.isEmpty then
      let (rest, scopes) ← declarationsMeaning outer rest scopes
      pure (.cons root .empty rest, scopes)
    else
      let path := outer ++ [root.name]
      if path ∈ scopes then .error (.repeatedScope path)
      else
        let (members, scopes) ← declarationsMeaning path members (scopes ++ [path])
        let (rest, scopes) ← declarationsMeaning outer rest scopes
        pure (.cons root members rest, scopes)

inductive Subject
  | type (tree : Tree .qualified)
  | name (tree : Tree .name)
  deriving DecidableEq

structure Job where
  bindings : List BindingTree
  declarations : Forest DeclarationTree
  scope : List String
  subject : Subject
  deriving DecidableEq

def Document.subjectMeaning (d : Document) : Except MeaningError Subject :=
  match d.type, d.name with
  | some type, none => type.meaning.map .type
  | none, some name => name.meaning.map .name
  | some _, some _ => .error .typeAndName
  | none, none => .error .noSubject

def scopeMeaning (declarations : Forest WrittenDeclaration) (scope : List String) :
    Except MeaningError (Forest DeclarationTree) := do
  let (declarations, scopes) ← declarationsMeaning [] declarations []
  if scope.isEmpty || scope ∈ scopes then pure declarations
  else .error (.unknownScope scope)

def Document.meaning (d : Document) : Except MeaningError Job := do
  let bindings ← d.bindings.mapM WrittenBinding.meaning
  let declarations ← scopeMeaning d.declarations d.scope
  let subject ← d.subjectMeaning
  pure ⟨bindings, declarations, d.scope, subject⟩

end Respell

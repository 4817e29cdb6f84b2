import Respell.Document.Basic
import Respell.Json.Fields

/-!
Reading documents from JSON. Types and names are looked at in full before they are read, so they
must be readable throughout, fields that nobody asks for included. The records around them are read
field by field, and what stands in their other fields does not matter.
-/
namespace Respell

namespace Expr

open Json

def typeKinds : List (String × List String) :=
  [("void", []), ("integer", ["integer"]), ("float", ["float"]), ("pointer", ["element"]),
   ("reference", ["element"]), ("array", ["element", "size"]),
   ("pointer_to_member", ["class", "element"]), ("named", ["name"]),
   ("function", ["name", "return_type", "arguments", "variadic", "const"])]

def nameKinds : List (String × List String) :=
  [("identifier", ["text"]), ("qualified", ["base", "member"]),
   ("template", ["identifier", "args"]), ("destructor", ["identifier"]),
   ("operator", ["operator"]), ("conversion", ["target"]),
   ("selector", ["parts", "has_arguments"])]

structure PartReaders where
  qual : Json → Option (Expr .qualified)
  name : Json → Option (Expr .name)
  arg : Json → Option Arg

def typeOfFields? (part : PartReaders) : String × List (Option Json) → Option (Expr .type)
  | ("void", []) => some .void
  | ("integer", [some kind]) => (word? IntegerKind true kind).map .integer
  | ("float", [some kind]) => (word? FloatKind true kind).map .float
  | ("pointer", [some element]) => (part.qual element).map .pointer
  | ("reference", [some element]) => (part.qual element).map .reference
  | ("array", [some element, some size]) => do
    let element ← part.qual element
    let size ← word32? size
    pure (.array element size)
  | ("pointer_to_member", [some owner, some element]) => do
    let owner ← part.name owner
    let element ← part.qual element
    pure (.memberPointer owner element)
  | ("named", [some name]) => (part.name name).map .named
  | ("function", [name, some result, arguments, variadic, const]) => do
    let name ← optional? part.name name
    let result ← part.qual result
    let arguments ← withDefault? [] (list? part.arg) arguments
    let variadic ← withDefault? false bool? variadic
    let const ← withDefault? false bool? const
    pure (.function (.ofOption name) result (.ofArgs arguments) variadic const)
  | _ => none

def nameOfFields? (part : PartReaders) : String × List (Option Json) → Option (Expr .name)
  | ("identifier", [some text]) => (text? text).map .identifier
  | ("qualified", [some base, some member]) => do
    let base ← part.name base
    let member ← part.name member
    pure (.qualified base member)
  | ("template", [some text, args]) => do
    let text ← text? text
    let args ← withDefault? [] (list? part.qual) args
    pure (.template text (.ofTypes args))
  | ("destructor", [some text]) => (text? text).map .destructor
  | ("operator", [some kind]) => (word? OperatorKind true kind).map .operator
  | ("conversion", [some target]) => (part.qual target).map .conversion
  | ("selector", [some parts, hasArguments]) => do
    let parts ← list? part.name parts
    let hasArguments ← withDefault? false bool? hasArguments
    pure (.selector (.ofNames parts) hasArguments)
  | _ => none

def argOfFields? (part : PartReaders) : List (Option Json) → Option Arg
  | [name, some type, defaultValue] => do
    let name ← optional? part.name name
    let type ← part.qual type
    let defaultValue ← optional? text? defaultValue
    pure ⟨.ofOption name, type, defaultValue⟩
  | _ => none

/-- A type from the members of an object. `nested` says that it is part of another type or name. -/
def qualOfMembers? (part : PartReaders) (nested : Bool) (members : List (Option String × Json)) :
    Option (Expr .qualified) := do
  let qualifiers ← withDefault? [] (list? (word? Qualifier nested)) (← field? members "qualifiers")
  let type ← typeOfFields? part (← taggedObject? typeKinds members)
  pure (.qual type qualifiers)

mutual

def qualOfJson? (nested : Bool) : Nat → Json → Option (Expr .qualified)
  | depth + 1, .object members =>
    qualOfMembers? ⟨qualOfJson? true depth, nameOfJson? depth, argOfJson? depth⟩ nested members
  | _, _ => none

def nameOfJson? : Nat → Json → Option (Expr .name)
  | _, .string text => text.map .spelled
  | depth + 1, v => do
    nameOfFields? ⟨qualOfJson? true depth, nameOfJson? depth, argOfJson? depth⟩
      (← tagged? nameKinds v)
  | 0, _ => none

def argOfJson? : Nat → Json → Option Arg
  | depth + 1, v => do
    argOfFields? ⟨qualOfJson? true depth, nameOfJson? depth, argOfJson? depth⟩
      (← record? ["name", "type", "default"] v)
  | 0, _ => none

end

def typeOfJson? (room : Nat) (v : Json) : Option (Expr .qualified) :=
  if v.readable room then qualOfJson? false room v else none

def nameOfReadable? (room : Nat) (v : Json) : Option (Expr .name) :=
  if v.readable room then nameOfJson? room v else none

def parseType? (text : String) : Option (Expr .qualified) :=
  (Json.parse? text).bind (typeOfJson? depthLimit)

def parseName? (text : String) : Option (Expr .name) :=
  (Json.parse? text).bind (nameOfReadable? depthLimit)

end Expr

namespace Document

open Json

/-- An array whose members may nest one level less deep than the array. -/
def listOfJson? {α : Type} (f : Nat → Json → Option α) : Nat → Json → Option (List α)
  | room + 1, .array items => items.mapM (f room)
  | _, _ => none

def bindingOfJson? : Nat → Json → Option WrittenBinding
  | room + 1, v => do
    match ← record? ["name", "type"] v with
    | [some name, some type] => do
      let name ← Expr.nameOfReadable? room name
      let type ← Expr.typeOfJson? room type
      pure ⟨name, type⟩
    | _ => none
  | 0, _ => none

mutual

def declarationOfJson? : Nat → Json → Option (WrittenDeclaration × Forest WrittenDeclaration)
  | room + 1, v => do
    match ← record? ["name", "type", "members"] v with
    | [some name, type, members] => do
      let name ← text? name
      let type ← optional? (Expr.typeOfJson? room) type
      let members ← withDefault? .empty (forestOfJson? room) members
      pure (⟨name, type⟩, members)
    | _ => none
  | 0, _ => none

def forestOfJson? : Nat → Json → Option (Forest WrittenDeclaration)
  | room + 1, .array items => (items.mapM (declarationOfJson? room)).map .ofList
  | _, _ => none

end

def ofJson? : Nat → Json → Option Document
  | room + 1, v => do
    match ← record? ["type", "name", "bindings", "declarations", "scope"] v with
    | [type, name, bindings, declarations, scope] => do
      let type ← optional? (Expr.typeOfJson? room) type
      let name ← optional? (Expr.nameOfReadable? room) name
      let bindings ← withDefault? [] (listOfJson? bindingOfJson? room) bindings
      let declarations ← withDefault? .empty (forestOfJson? room) declarations
      let scope ← withDefault? [] (listOfJson? (fun _ => text?) room) scope
      pure { type, name, bindings, declarations, scope }
    | _ => none
  | 0, _ => none

def parse? (text : String) : Option Document :=
  (Json.parse? text).bind (ofJson? depthLimit)

def parseBindings? (text : String) : Option (List WrittenBinding) :=
  (Json.parse? text).bind (listOfJson? bindingOfJson? depthLimit)

def parseDeclarations? (text : String) : Option (Forest WrittenDeclaration) :=
  (Json.parse? text).bind (forestOfJson? depthLimit)

end Document
end Respell

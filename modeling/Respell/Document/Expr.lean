import Respell.Tree

/-!
Types and names as documents write them. A written name may be a text with `::` in it or a tree; a
written type lists its qualifiers, which may repeat. What a written part means is a tree, see
`Respell.Document.Meaning`.
-/
namespace Respell

inductive Expr : Part → Type
  | void : Expr .type
  | integer (kind : IntegerKind) : Expr .type
  | float (kind : FloatKind) : Expr .type
  | pointer (element : Expr .qualified) : Expr .type
  | reference (element : Expr .qualified) : Expr .type
  | array (element : Expr .qualified) (size : UInt32) : Expr .type
  | memberPointer (owner : Expr .name) (element : Expr .qualified) : Expr .type
  | named (name : Expr .name) : Expr .type
  | function (name : Expr .optionalName) (result : Expr .qualified) (arguments : Expr .arguments)
      (variadic const : Bool) : Expr .type
  | qual (type : Expr .type) (qualifiers : List Qualifier) : Expr .qualified
  | spelled (text : String) : Expr .name
  | identifier (text : String) : Expr .name
  | qualified (base member : Expr .name) : Expr .name
  | template (identifier : String) (args : Expr .types) : Expr .name
  | destructor (identifier : String) : Expr .name
  | operator (kind : OperatorKind) : Expr .name
  | conversion (target : Expr .qualified) : Expr .name
  | selector (parts : Expr .names) (hasArguments : Bool) : Expr .name
  | noName : Expr .optionalName
  | justName (name : Expr .name) : Expr .optionalName
  | noTypes : Expr .types
  | consType (first : Expr .qualified) (rest : Expr .types) : Expr .types
  | noNames : Expr .names
  | consName (first : Expr .name) (rest : Expr .names) : Expr .names
  | noArguments : Expr .arguments
  | consArgument (name : Expr .optionalName) (type : Expr .qualified)
      (defaultValue : Option String) (rest : Expr .arguments) : Expr .arguments
  deriving DecidableEq

namespace Expr

def ofTypes : List (Expr .qualified) → Expr .types
  | [] => noTypes
  | first :: rest => consType first (ofTypes rest)

def ofNames : List (Expr .name) → Expr .names
  | [] => noNames
  | first :: rest => consName first (ofNames rest)

def ofOption : Option (Expr .name) → Expr .optionalName
  | none => noName
  | some name => justName name

structure Arg where
  name : Expr .optionalName
  type : Expr .qualified
  defaultValue : Option String

def ofArgs : List Arg → Expr .arguments
  | [] => noArguments
  | a :: rest => consArgument a.name a.type a.defaultValue (ofArgs rest)

end Expr
end Respell

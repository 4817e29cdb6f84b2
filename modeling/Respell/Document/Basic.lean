import Respell.Document.Expr

/-!
Documents: a type or a name to rewrite, the bindings to apply, and declarations with the scope to
resolve names from. Declarations nest, so they form a forest.
-/
namespace Respell

/-- Trees side by side, each with a value at its root and further trees below it. -/
inductive Forest (α : Type)
  | empty
  | cons (root : α) (members rest : Forest α)
  deriving DecidableEq

def Forest.isEmpty {α : Type} : Forest α → Bool
  | empty => true
  | cons .. => false

def Forest.ofList {α : Type} : List (α × Forest α) → Forest α
  | [] => empty
  | (root, members) :: rest => cons root members (ofList rest)

structure WrittenBinding where
  name : Expr .name
  type : Expr .qualified
  deriving DecidableEq

structure WrittenDeclaration where
  name : String
  type : Option (Expr .qualified)
  deriving DecidableEq

/-- A document. One with a type and a name, or with neither, can be written but not rewritten. -/
structure Document where
  type : Option (Expr .qualified) := none
  name : Option (Expr .name) := none
  bindings : List WrittenBinding := []
  declarations : Forest WrittenDeclaration := .empty
  /-- The path of declarations that enclose the scope, outermost first. -/
  scope : List String := []
  deriving DecidableEq

end Respell

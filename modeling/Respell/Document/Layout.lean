import Respell.Bindings
import Respell.Declarations
import Respell.Document.Meaning
import Respell.Tree.Intern

/-!
Laying out what a document means in a store and a declaration table. Declarations are declared
before their members, and each declaration with members opens a scope that it owns.
-/
namespace Respell

structure Layout where
  table : DeclarationTable
  scopes : List (List String × ScopeId)

namespace Layout

def new : Layout := ⟨.new, []⟩

instance : Inhabited Layout := ⟨new⟩

/-- Declares a forest in a scope, which is the one at a path. -/
def declareAll (scope : ScopeId) (path : List String) :
    Forest DeclarationTree → Layout → Storing Layout
  | .empty, layout => pure layout
  | .cons root members rest, layout => do
    let name ← Store.identifierName root.name
    let type ← root.type.intern
    let (symbol, table) := layout.table.declare scope name type
    if members.isEmpty then declareAll scope path rest { layout with table }
    else
      let (inner, table) := table.newScope scope symbol
      let path' := path ++ [root.name]
      let layout ← declareAll inner path' members ⟨table, layout.scopes ++ [(path', inner)]⟩
      declareAll scope path rest layout

def ofForest (declarations : Forest DeclarationTree) : Storing Layout :=
  declareAll DeclarationTable.globalScope [] declarations new

/-- The scope at a path; the empty path is that of the global scope. -/
def scopeAt? (layout : Layout) (path : List String) : Option ScopeId :=
  if path.isEmpty then some DeclarationTable.globalScope
  else (layout.scopes.find? fun scope => scope.1 == path).map (·.2)

end Layout

def BindingTree.internAll : List BindingTree → BindingMap → Storing BindingMap
  | [], m => pure m
  | b :: rest, m => do
    let name ← b.name.intern
    let type ← b.type.intern
    internAll rest (m.bind name type)

end Respell

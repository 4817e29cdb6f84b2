import Respell.Resolver

/-!
A table of declarations. Each declaration is made in a scope; a scope has a parent, and may be
owned by a declaration, as the scope of a namespace is. Lookup goes from a scope outwards and stops
at the first scope that declares the name; the full name of a declaration follows the owners.
-/
namespace Respell

structure Scope where
  parent : Option ScopeId
  owner : Option SymbolId
  members : List SymbolId := []
  deriving DecidableEq, Repr

structure Declared where
  name : NameId
  type : QualType
  scope : ScopeId
  deriving DecidableEq, Repr

structure DeclarationTable where
  scopes : Array Scope
  symbols : Array Declared
  deriving DecidableEq, Repr

namespace DeclarationTable

def new : DeclarationTable := ⟨#[⟨none, none, []⟩], #[]⟩

instance : Inhabited DeclarationTable := ⟨new⟩

def globalScope : ScopeId := ⟨0⟩

def symbolCount (t : DeclarationTable) : Nat := t.symbols.size

def symbol? (t : DeclarationTable) (symbol : SymbolId) : Option Declared :=
  t.symbols[symbol.index]?

def scope? (t : DeclarationTable) (scope : ScopeId) : Option Scope := t.scopes[scope.index]?

def hasScope (t : DeclarationTable) (scope : ScopeId) : Bool := scope.index < t.scopes.size

/-- Records a declaration and lists it in its scope. In a scope that does not exist the
declaration is recorded but listed nowhere, and the answer is that it failed. -/
def declare (t : DeclarationTable) (scope : ScopeId) (name : NameId) (type : QualType) :
    Option SymbolId × DeclarationTable :=
  let symbol : SymbolId := ⟨t.symbols.size⟩
  let symbols := t.symbols.push ⟨name, type, scope⟩
  if t.hasScope scope then
    (some symbol,
      { scopes := t.scopes.modify scope.index fun s => { s with members := s.members ++ [symbol] }
        symbols })
  else (none, { t with symbols })

/-- Opens a scope in a parent. An owner that is not declared yet is dropped. -/
def newScope (t : DeclarationTable) (parent : ScopeId) (owner : Option SymbolId) :
    ScopeId × DeclarationTable :=
  let owner := owner.filter fun symbol => symbol.index < t.symbols.size
  (⟨t.scopes.size⟩, { t with scopes := t.scopes.push ⟨some parent, owner, []⟩ })

/-- At most `bound` scopes on the way from a scope outwards, the scope itself first. -/
def scopesFrom (t : DeclarationTable) : Nat → ScopeId → List Scope
  | 0, _ => []
  | bound + 1, scope =>
    match t.scope? scope with
    | none => []
    | some s => s :: (match s.parent with
      | none => []
      | some parent => scopesFrom t bound parent)

def meaningsIn (t : DeclarationTable) (name : NameId) (scope : Scope) : List Meaning :=
  scope.members.filterMap fun symbol =>
    match t.symbol? symbol with
    | some declared => if declared.name = name then some ⟨symbol, declared.type⟩ else none
    | none => none

/-- The meanings of a name in the innermost scope that declares it, in order of declaration. A
way outwards that visits no scope twice is never longer than the number of scopes. -/
def lookup (t : DeclarationTable) (name : NameId) (scope : ScopeId) : List Meaning :=
  ((t.scopesFrom t.scopes.size scope).map (t.meaningsIn name)).find? (!·.isEmpty) |>.getD []

def ownersFrom (t : DeclarationTable) : Nat → SymbolId → List Declared
  | 0, _ => []
  | bound + 1, symbol =>
    match t.symbol? symbol with
    | none => []
    | some declared => declared :: (match (t.scope? declared.scope).bind (·.owner) with
      | none => []
      | some owner => ownersFrom t bound owner)

/-- The names of the declarations around a symbol, outermost first, and then its own. A way
through the owners that visits no symbol twice is never longer than the number of symbols. -/
def qualifiedName (t : DeclarationTable) (symbol : SymbolId) : List NameId :=
  ((t.ownersFrom t.symbols.size symbol).map (·.name)).reverse

def resolver (t : DeclarationTable) : Resolver := ⟨t.lookup, t.qualifiedName⟩

end DeclarationTable
end Respell

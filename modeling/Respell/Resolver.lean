import Respell.Text.Split
import Respell.Tree.Print

/-!
Name resolution as the rewriter sees it: what a name means in a scope, and how a declaration is
called in full. A resolver also says how declared types are printed (`Resolver.spell`).
-/
namespace Respell

/-- One meaning of a name. It has a symbol when it comes from a declaration. -/
structure Meaning where
  symbol : Option SymbolId
  type : QualType
  deriving DecidableEq, Repr

structure Resolver where
  /-- The meanings of a name as seen from a scope, best first. -/
  lookup : NameId → ScopeId → List Meaning
  /-- The names of the declarations around a symbol, outermost first, and then its own; empty for
  a symbol that is not known. -/
  qualifiedName : SymbolId → List NameId

namespace Resolver

/-- The full name of a declaration, where declared types inside that name are spelled out to the
given depth. -/
def spellTo (r : Resolver) (s : Store) : Nat → SymbolId → Option String
  | 0, _ => none
  | depth + 1, symbol =>
    match r.qualifiedName symbol with
    | [] => none
    | chain => some (Text.joinPath (chain.map (s.nameText (spellTo r s depth))))

/-- The full name of a declaration. Names that mention declared types whose names mention further
ones do so at most once for each type of the store, unless they go round in a circle. -/
def spell (r : Resolver) (s : Store) : SymbolId → Option String :=
  r.spellTo s (s.typeCount + 1)

/-- Whether the declared types in the full name of a declaration, and those in their own full names,
are all spelled out within the depth. -/
def endsWithin (r : Resolver) (s : Store) : Nat → SymbolId → Bool
  | 0, _ => false
  | depth + 1, symbol =>
    (r.qualifiedName symbol).all fun n => ((s.nameTree n).asked true).all (endsWithin r s depth)

/-- Whether the spelling of the full name of a declaration ends. Where it does, `spell` gives it. -/
def ends (r : Resolver) (s : Store) : SymbolId → Bool := r.endsWithin s (s.typeCount + 1)

end Resolver

def noSpelling (_ : SymbolId) : Option String := none

structure LookupContext where
  resolver : Option Resolver := none

namespace LookupContext

def empty : LookupContext := {}

instance : Inhabited LookupContext := ⟨empty⟩

def isEmpty (c : LookupContext) : Bool := c.resolver.isNone

def lookup (c : LookupContext) (name : NameId) (scope : ScopeId) : List Meaning :=
  match c.resolver with
  | some r => r.lookup name scope
  | none => []

def qualifiedName (c : LookupContext) (symbol : SymbolId) : List NameId :=
  match c.resolver with
  | some r => r.qualifiedName symbol
  | none => []

def spell (c : LookupContext) (s : Store) : SymbolId → Option String :=
  match c.resolver with
  | some r => r.spell s
  | none => noSpelling

def ends (c : LookupContext) (s : Store) (symbol : SymbolId) : Bool :=
  match c.resolver with
  | some r => r.ends s symbol
  | none => true

def summary (c : LookupContext) : String :=
  "LookupContext \x7b has_resolver: " ++ (if c.isEmpty then "false" else "true") ++ " \x7d"

end LookupContext
end Respell

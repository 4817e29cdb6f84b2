import Respell.Bindings
import Respell.Resolver

/-!
Substitution environments: a stack of providers of replacement types, and the scope and resolver
they work with. The provider entered last is asked first, and the first defined answer counts.
-/
namespace Respell

/-- What a provider is asked, with what it may know of the setting. The providers themselves are not
in it: a provider may depend on how many are entered, but it cannot ask the others, so that asking
always ends. -/
structure Query where
  name : NameId
  depth : Nat
  scope : Option ScopeId
  context : LookupContext

/-- A source of replacement types. It answers `QualType.undefined` for a name that it does not know.
To build its answer it may intern, but it loses nothing that the store has. -/
structure Provider where
  answer : Query → Storing QualType
  grows : ∀ (q : Query) (s : Store), s.Extends (answer q s).2

namespace Provider

def ofAnswers (f : Query → QualType) : Provider where
  answer q := pure (f q)
  grows _ s := .refl s

def ofBindings (m : BindingMap) : Provider :=
  ofAnswers fun q => (m.get? q.name).getD .undefined

def qualifiedName : NameId → List NameId → Storing NameId
  | base, [] => pure base
  | base, member :: rest => do
    let base ← Store.internName (.qualified base member)
    qualifiedName base rest

theorem extends_qualifiedName (base : NameId) (rest : List NameId) (s : Store) :
    s.Extends (qualifiedName base rest s).2 := by
  induction rest generalizing base s with
  | nil => exact .refl s
  | cons member rest ih => exact (Store.extends_internName _ s).trans (ih _ _)

/-- The type that a name means in the current scope, spelled in full. Only the first meaning
counts; one whose declaration has no full name answers with its own type. -/
def qualifiedAnswer (q : Query) : Storing QualType :=
  match q.scope with
  | none => pure .undefined
  | some scope =>
    match q.context.lookup q.name scope with
    | [] => pure .undefined
    | meaning :: _ =>
      match meaning.symbol.map q.context.qualifiedName with
      | some (base :: rest) => do
        let name ← qualifiedName base rest
        let type ← Store.namedType name
        pure ⟨type, .none⟩
      | _ => pure meaning.type

theorem extends_qualifiedAnswer (q : Query) (s : Store) : s.Extends (qualifiedAnswer q s).2 := by
  unfold qualifiedAnswer
  cases q.scope with
  | none => exact .refl s
  | some scope =>
    dsimp only
    cases q.context.lookup q.name scope with
    | nil => exact .refl s
    | cons meaning _ =>
      dsimp only
      rcases meaning.symbol.map q.context.qualifiedName with _ | _ | ⟨base, rest⟩
      · exact .refl s
      · exact .refl s
      · exact (extends_qualifiedName base rest s).trans (Store.extends_internType _ _)

def qualifying : Provider := ⟨qualifiedAnswer, extends_qualifiedAnswer⟩

end Provider

/-- Providers, the one entered last in front, with the scope and context of lookups. -/
structure Environment where
  providers : List Provider := []
  scope : Option ScopeId := none
  context : LookupContext := .empty

structure Reply where
  type : QualType
  asked : Nat
  deriving DecidableEq, Repr

namespace Environment

def new : Environment := {}

def withScope (scope : ScopeId) (context : LookupContext) : Environment :=
  { scope := some scope, context }

instance : Inhabited Environment := ⟨new⟩

def depth (e : Environment) : Nat := e.providers.length

def isEmpty (e : Environment) : Bool := e.providers.isEmpty

def enter (e : Environment) (p : Provider) : Environment :=
  { e with providers := p :: e.providers }

def leave (e : Environment) : Environment := { e with providers := e.providers.tail }

def enterAll (e : Environment) (ps : List Provider) : Environment := ps.foldl enter e

def switchScope (e : Environment) (scope : Option ScopeId) : Option ScopeId × Environment :=
  (e.scope, { e with scope })

def setContext (e : Environment) (context : LookupContext) : Environment := { e with context }

def query (e : Environment) (name : NameId) : Query := ⟨name, e.depth, e.scope, e.context⟩

def askInTurn (q : Query) : List Provider → Storing Reply
  | [] => pure ⟨.undefined, 0⟩
  | p :: rest => do
    let type ← p.answer q
    if type.isUndefined then
      let reply ← askInTurn q rest
      pure ⟨reply.type, reply.asked + 1⟩
    else pure ⟨type, 1⟩

def ask (e : Environment) (name : NameId) : Storing Reply := askInTurn (e.query name) e.providers

theorem extends_askInTurn (q : Query) (ps : List Provider) (s : Store) :
    s.Extends (askInTurn q ps s).2 := by
  induction ps generalizing s with
  | nil => exact .refl s
  | cons p rest ih =>
    change s.Extends ((if (p.answer q s).1.isUndefined then (do
      let reply ← askInTurn q rest
      pure ⟨reply.type, reply.asked + 1⟩)
      else pure ⟨(p.answer q s).1, 1⟩ : Storing Reply) (p.answer q s).2).2
    split
    · exact (p.grows q s).trans (ih _)
    · exact p.grows q s

theorem extends_ask (e : Environment) (name : NameId) (s : Store) : s.Extends (e.ask name s).2 :=
  extends_askInTurn (e.query name) e.providers s

end Environment
end Respell

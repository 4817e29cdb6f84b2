import Respell.Rewriting

/-!
Rewriting in calls that may nest only so deep. A rewrite works on a registry of texts and nodes. In
a session the registry is a store, where calls nest along parts that came earlier; in a draft it is
an interner, which keeps nodes whatever they mention, so that a handle may lead back to itself and
calls may nest without end.
-/
namespace Respell

/-- What a rewrite works on: it gives out the handles of texts and nodes, and takes note of
events. -/
class Registry (σ : Type) where
  interner : σ → Interner
  internText : String → StateM σ Atom
  internNode : Node → StateM σ Slot
  emit : Event → StateM σ Unit

instance : Registry Session where
  interner x := x.store.toInterner
  internText text := Rewriting.storing (Store.internText text)
  internNode n := Rewriting.storing fun s => s.internNode n
  emit := Rewriting.emit

/-- An interner, and what was seen of the rewrites that worked on it. -/
structure Draft where
  interner : Interner
  events : Array Event := #[]

instance : Registry Draft where
  interner := Draft.interner
  internText text x :=
    let (a, interner) := x.interner.internText text
    (a, { x with interner })
  internNode n x :=
    let (slot, interner) := x.interner.internNode n
    (slot, { x with interner })
  emit event x := ((), { x with events := x.events.push event })

/-- A provider that comes with the program. -/
inductive Source
  | bindings (m : BindingMap)
  | qualifying

def Source.provider : Source → Provider
  | bindings m => .ofBindings m
  | qualifying => .qualifying

/-- Providers that come with the program, the one entered last in front, with the scope and context
of lookups. -/
structure Sources where
  stack : List Source := []
  scope : Option ScopeId := none
  context : LookupContext := .empty

def Sources.environment (e : Sources) : Environment :=
  { providers := e.stack.map Source.provider, scope := e.scope, context := e.context }

namespace Registry

variable {σ : Type} [Registry σ]

def internName (node : NameNode) : StateM σ NameId := do
  let slot ← internNode (.name node)
  pure ⟨slot⟩

/-- A rebuilt type. It has no qualifiers of its own. -/
def rebuilt (node : TypeNode) : StateM σ QualType := do
  let slot ← internNode (.type node)
  pure ⟨.stored slot, .none⟩

/-- An atom with the same text that the registry gave out itself. -/
def reintern (a : Atom) : StateM σ Atom := do
  let x ← get
  internText ((interner x).text a)

/-! ### Answers -/

def qualifiedName : NameId → List NameId → StateM σ NameId
  | base, [] => pure base
  | base, member :: rest => do
    let base ← internName (.qualified base member)
    qualifiedName base rest

/-- The type that a name means in the current scope, spelled in full. -/
def qualifiedAnswer (q : Query) : StateM σ QualType :=
  match q.scope with
  | none => pure .undefined
  | some scope =>
    match q.context.lookup q.name scope with
    | [] => pure .undefined
    | meaning :: _ =>
      match meaning.symbol.map q.context.qualifiedName with
      | some (base :: rest) => do
        let name ← qualifiedName base rest
        rebuilt (.named name)
      | _ => pure meaning.type

def answer (q : Query) : Source → StateM σ QualType
  | .bindings m => pure ((m.get? q.name).getD .undefined)
  | .qualifying => qualifiedAnswer q

def askInTurn (q : Query) : List Source → StateM σ Reply
  | [] => pure ⟨.undefined, 0⟩
  | source :: rest => do
    let type ← answer q source
    if type.isUndefined then
      let reply ← askInTurn q rest
      pure ⟨reply.type, reply.asked + 1⟩
    else pure ⟨type, 1⟩

end Registry

def Sources.ask {σ : Type} [Registry σ] (e : Sources) (name : NameId) : StateM σ Reply :=
  Registry.askInTurn (e.environment.query name) e.stack

/-! ### Calls -/

/-- Work on a registry that may be given up. -/
abbrev Limited (σ : Type) := StateT σ Option

def unlimited {σ α : Type} (act : StateM σ α) : Limited σ α := fun x => some (act x)

theorem Limited.get_bind {σ α : Type} (k : σ → Limited σ α) (x : σ) : (get >>= k) x = k x x := rfl

/-- The calls that a rewrite makes for the types and names inside what it rewrites. -/
structure Calls (σ : Type) where
  ask : NameId → StateM σ Reply
  qual : QualType → Limited σ QualType
  name : NameId → Limited σ NameId

namespace Calls

open Registry

variable {σ : Type} [Registry σ] (c : Calls σ) (i : Interner)

def optionalName : Option NameId → Limited σ (Option NameId)
  | none => pure none
  | some n => do
    let name ← c.name n
    pure (some name)

def argument (a : Argument) : Limited σ Argument := do
  let name ← c.optionalName a.name
  let type ← c.qual a.type
  pure { a with name, type }

def typeNode (t : TypeId) : TypeNode → Limited σ QualType
  | .integer kind => unlimited (rebuilt (.integer kind))
  | .float kind => unlimited (rebuilt (.float kind))
  | .pointer element => do
    let element ← c.qual element
    unlimited (rebuilt (.pointer element))
  | .reference element => do
    let element ← c.qual element
    unlimited (rebuilt (.reference element))
  | .array element size => do
    let element ← c.qual element
    unlimited (rebuilt (.array element size))
  | .memberPointer owner element => do
    let owner ← c.name owner
    let element ← c.qual element
    unlimited (rebuilt (.memberPointer owner element))
  | .named name => do
    let reply ← unlimited (c.ask name)
    unlimited (emit (.query name reply.asked))
    if reply.type.isUndefined then
      let name ← c.name name
      unlimited (rebuilt (.named name))
    else pure reply.type
  | .function signature =>
    match i.signature? signature with
    | none => pure ⟨t, .none⟩
    | some f => do
      let name ← c.optionalName f.name
      let result ← c.qual f.result
      let arguments ← f.arguments.mapM c.argument
      let slot ← unlimited
        (internNode (.signature { name, result, arguments, attributes := f.attributes }))
      unlimited (rebuilt (.function ⟨slot⟩))
  | .declared shape _ => do
    unlimited (emit (.unsupported t shape))
    pure ⟨t, .none⟩

def nameNode : NameNode → Limited σ NameId
  | .identifier text => do
    let text ← unlimited (reintern text)
    unlimited (internName (.identifier text))
  | .qualified base member => do
    let base ← c.name base
    let member ← c.name member
    unlimited (internName (.qualified base member))
  | .template identifier args => do
    let identifier ← unlimited (reintern identifier)
    let args ← (i.typeList args).mapM c.qual
    let slot ← unlimited (internNode (.typeList args))
    unlimited (internName (.template identifier ⟨slot⟩))
  | .destructor identifier => do
    let identifier ← unlimited (reintern identifier)
    unlimited (internName (.destructor identifier))
  | .operator kind => unlimited (internName (.operator kind))
  | .conversion target => do
    let target ← c.qual target
    unlimited (internName (.conversion target))
  | .selector parts hasArguments => do
    let parts ← (i.nameList parts).mapM c.name
    let slot ← unlimited (internNode (.nameList parts))
    unlimited (internName (.selector ⟨slot⟩ hasArguments))

def enterType (t : TypeId) : Limited σ QualType := do
  match t with
  | .undefined => pure .undefined
  | .void => pure ⟨.void, .none⟩
  | .reserved _ => pure ⟨t, .none⟩
  | .stored slot =>
    let x ← get
    match (interner x).typeNode? slot with
    | none => pure ⟨t, .none⟩
    | some n => c.typeNode (interner x) t n

def enterQual (t : QualType) : Limited σ QualType := do
  let rewritten ← c.enterType t.type
  if rewritten.isUndefined then pure .undefined else pure (rewritten.qualify t.qualifiers)

def enterName (n : NameId) : Limited σ NameId := do
  let x ← get
  match (interner x).nameNode? n with
  | none => pure n
  | some node => c.nameNode (interner x) node

theorem enterType_of_typeNode? {slot : Slot} {n : TypeNode} {x : σ}
    (node : (interner x).typeNode? slot = some n) :
    c.enterType (.stored slot) x = c.typeNode (interner x) (.stored slot) n x := by
  rw [enterType, Limited.get_bind, node]

theorem enterType_of_typeNode?_eq_none {slot : Slot} {x : σ}
    (node : (interner x).typeNode? slot = none) :
    c.enterType (.stored slot) x = some (⟨.stored slot, .none⟩, x) := by
  rw [enterType, Limited.get_bind, node]
  rfl

theorem enterName_of_nameNode? {n : NameId} {node : NameNode} {x : σ}
    (there : (interner x).nameNode? n = some node) :
    c.enterName n x = c.nameNode (interner x) node x := by
  rw [enterName, Limited.get_bind, there]

theorem enterName_of_nameNode?_eq_none {n : NameId} {x : σ}
    (absent : (interner x).nameNode? n = none) : c.enterName n x = some (n, x) := by
  rw [enterName, Limited.get_bind, absent]
  rfl

end Calls

/-- Rewriting that gives up where more than so many calls are nested in each other. -/
def Registry.nested {σ : Type} [Registry σ] (ask : NameId → StateM σ Reply) : Nat → Calls σ
  | 0 => ⟨ask, fun _ _ => none, fun _ _ => none⟩
  | depth + 1 => ⟨ask, (nested ask depth).enterQual, (nested ask depth).enterName⟩

end Respell

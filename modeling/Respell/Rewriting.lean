import Respell.Diagnostic
import Respell.Environment

/-!
Rewriting types and names. A rewrite walks a type or a name, asks the environment for every named
type that it meets, and rebuilds what it walked through. A type that the environment answers is
taken as it is; the qualifiers written at its position are added. The environment sees whole names
of types only, so the other parts of names are rebuilt and never replaced.
-/
namespace Respell

/-- What can be seen of a rewrite from outside, in order. -/
inductive Event
  /-- The environment was asked for a name, and so many providers were asked. -/
  | query (name : NameId) (asked : Nat)
  /-- A type of an opaque shape passed through. -/
  | unsupported (type : TypeId) (shape : OpaqueShape)
  deriving DecidableEq, Repr

def Event.diagnostic? : Event → Option Diagnostic
  | query _ _ => none
  | unsupported type shape => some (.unsupportedShape type shape)

structure Session where
  store : Store
  events : Array Event := #[]

namespace Session

instance : Inhabited Session := ⟨⟨.initial, #[]⟩⟩

def diagnostics (s : Session) : List Diagnostic := s.events.toList.filterMap Event.diagnostic?

end Session

abbrev Rewriting := StateM Session

namespace Rewriting

def storing {α : Type} (act : Storing α) : Rewriting α := fun session =>
  ((act session.store).1, { session with store := (act session.store).2 })

def emit (event : Event) : Rewriting Unit := fun session =>
  ((), { session with events := session.events.push event })

/-- A rebuilt type. It has no qualifiers of its own. -/
def rebuilt (node : TypeNode) : Rewriting QualType := do
  let type ← storing (Store.internType node)
  pure ⟨type, .none⟩

/-- An atom with the same text that the store gave out itself. -/
def reintern (a : Atom) : Rewriting Atom := do
  let session ← get
  storing (Store.internText (session.store.text a))

mutual

/-- Rewrites the type at a position, and keeps the qualifiers written there. -/
def rewriteQual (e : Environment) (t : QualType) : Rewriting QualType := do
  let rewritten ← rewriteType e t.type
  if rewritten.isUndefined then pure .undefined else pure (rewritten.qualify t.qualifiers)
termination_by 3 * t.rank + 1
decreasing_by exact Nat.lt_succ_self _

def rewriteType (e : Environment) (t : TypeId) : Rewriting QualType :=
  match t with
  | .undefined => pure .undefined
  | .void => pure ⟨.void, .none⟩
  | .reserved _ => pure ⟨t, .none⟩
  | .stored slot => do
    let session ← get
    match _h : session.store.typeNode? slot with
    | none => pure ⟨t, .none⟩
    | some (.integer kind) => rebuilt (.integer kind)
    | some (.float kind) => rebuilt (.float kind)
    | some (.pointer element) => do
      let element ← rewriteQual e element
      rebuilt (.pointer element)
    | some (.reference element) => do
      let element ← rewriteQual e element
      rebuilt (.reference element)
    | some (.array element size) => do
      let element ← rewriteQual e element
      rebuilt (.array element size)
    | some (.memberPointer owner element) => do
      let owner ← rewriteName e owner
      let element ← rewriteQual e element
      rebuilt (.memberPointer owner element)
    | some (.named name) => do
      let reply ← storing (e.ask name)
      emit (.query name reply.asked)
      if reply.type.isUndefined then
        let name ← rewriteName e name
        rebuilt (.named name)
      else pure reply.type
    | some (.function signature) =>
      match _hf : session.store.signature? signature with
      | none => pure ⟨t, .none⟩
      | some f => do
        let name ← rewriteOptionalName e f.name
        let result ← rewriteQual e f.result
        let arguments ← f.arguments.attach.mapM fun a => rewriteArgument e a.1
        let type ← storing (Store.functionType { name, result, arguments, attributes := f.attributes })
        pure ⟨type, .none⟩
    | some (.declared shape _) => do
      emit (.unsupported t shape)
      pure ⟨t, .none⟩
termination_by 3 * t.rank
decreasing_by
  all_goals simp only [TypeId.rank]
  · have := Store.rank_lt_of_typeNode? _h element.rank (by simp [Node.ranks]); omega
  · have := Store.rank_lt_of_typeNode? _h element.rank (by simp [Node.ranks]); omega
  · have := Store.rank_lt_of_typeNode? _h element.rank (by simp [Node.ranks]); omega
  · have := Store.rank_lt_of_typeNode? _h owner.slot.rank (by simp [Node.ranks]); omega
  · have := Store.rank_lt_of_typeNode? _h element.rank (by simp [Node.ranks]); omega
  · have := Store.rank_lt_of_typeNode? _h name.slot.rank (by simp [Node.ranks]); omega
  · have := (Store.rank_lt_of_function _h _hf).1; omega
  · have := (Store.rank_lt_of_function _h _hf).2.1; omega
  · have := (Store.rank_lt_of_function _h _hf).2.2 a.1 a.2; omega

def rewriteName (e : Environment) (n : NameId) : Rewriting NameId := do
  let session ← get
  match _h : session.store.nameNode? n with
  | none => pure n
  | some (.identifier text) => do
    let text ← reintern text
    storing (Store.internName (.identifier text))
  | some (.qualified base member) => do
    let base ← rewriteName e base
    let member ← rewriteName e member
    storing (Store.internName (.qualified base member))
  | some (.template identifier args) => do
    let identifier ← reintern identifier
    let args ← (session.store.typeList args).attach.mapM fun t => rewriteQual e t.1
    storing (Store.templateName identifier args)
  | some (.destructor identifier) => do
    let identifier ← reintern identifier
    storing (Store.internName (.destructor identifier))
  | some (.operator kind) => storing (Store.internName (.operator kind))
  | some (.conversion target) => do
    let target ← rewriteQual e target
    storing (Store.internName (.conversion target))
  | some (.selector parts hasArguments) => do
    let parts ← (session.store.nameList parts).attach.mapM fun n => rewriteName e n.1
    storing (Store.selectorName parts hasArguments)
termination_by 3 * n.slot.rank
decreasing_by
  · have := Store.rank_lt_of_nameNode? _h base.slot.rank (by simp [Node.ranks]); omega
  · have := Store.rank_lt_of_nameNode? _h member.slot.rank (by simp [Node.ranks]); omega
  · have := Store.rank_lt_of_template _h t.2; omega
  · have := Store.rank_lt_of_nameNode? _h target.rank (by simp [Node.ranks]); omega
  · have := Store.rank_lt_of_selector _h n.2; omega

def rewriteOptionalName (e : Environment) (n : Option NameId) : Rewriting (Option NameId) :=
  match n with
  | none => pure none
  | some n => do
    let name ← rewriteName e n
    pure (some name)
termination_by 3 * optionalRank n + 1
decreasing_by simp [optionalRank]

def rewriteArgument (e : Environment) (a : Argument) : Rewriting Argument := do
  let name ← rewriteOptionalName e a.name
  let type ← rewriteQual e a.type
  pure { a with name, type }
termination_by 3 * a.rank + 2
decreasing_by
  all_goals simp only [Argument.rank]
  all_goals omega

end

end Rewriting
end Respell

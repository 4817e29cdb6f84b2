import Respell.Qualifiers
import Respell.TextTable

/-!
Handles of types and names, and the nodes that a store keeps for them. A node mentions other
nodes by their handles only; its rank is the largest rank among them, so a node of rank `n` can be
understood from the first `n` entries of a store.
-/
namespace Respell

structure SymbolId where
  index : Nat
  deriving DecidableEq, Repr, Inhabited

structure ScopeId where
  index : Nat
  deriving DecidableEq, Repr, Inhabited

structure NameId where
  slot : Slot
  deriving DecidableEq, Repr

structure TypeListId where
  slot : Slot
  deriving DecidableEq, Repr

structure NameListId where
  slot : Slot
  deriving DecidableEq, Repr

structure SignatureId where
  slot : Slot
  deriving DecidableEq, Repr

/-- A handle to a type. Sixteen handles are intrinsic: the two that need no node, and fourteen
that are reserved and stand for nothing. -/
inductive TypeId
  | undefined
  | void
  | reserved (index : Fin 14)
  | stored (slot : Slot)
  deriving DecidableEq, Repr

namespace TypeId

def intrinsicCount : Nat := 16

def isIntrinsic : TypeId → Bool
  | stored _ => false
  | _ => true

/-- The rank of the entry, and zero for a handle without one. -/
def rank : TypeId → Nat
  | stored slot => slot.rank
  | _ => 0

end TypeId

structure QualType where
  type : TypeId
  qualifiers : Qualifiers := .none
  deriving DecidableEq, Repr

namespace QualType

/-- The absence of a type: how a substitution answers a name that it does not know. -/
def undefined : QualType := ⟨.undefined, .none⟩

def isUndefined (t : QualType) : Bool := t.type == .undefined

def qualify (t : QualType) (more : Qualifiers) : QualType := ⟨t.type, t.qualifiers ∪ more⟩

def rank (t : QualType) : Nat := t.type.rank

instance : Inhabited QualType := ⟨undefined⟩

end QualType

structure FunctionAttributes where
  variadic : Bool := false
  const : Bool := false
  volatile : Bool := false
  virtual : Bool := false
  pureVirtual : Bool := false
  methodKey : MethodKey := .normal
  deriving DecidableEq, Repr, Inhabited

structure Argument where
  name : Option NameId
  type : QualType
  defaultValue : Option Atom := none
  storage : StorageClass := .none
  deriving DecidableEq, Repr

structure Signature where
  name : Option NameId
  result : QualType
  arguments : List Argument
  attributes : FunctionAttributes := {}
  deriving DecidableEq, Repr

/-- What a store keeps for a type. A declared type stands for a whole declaration and has no parts
here. -/
inductive TypeNode
  | integer (kind : IntegerKind)
  | float (kind : FloatKind)
  | pointer (element : QualType)
  | reference (element : QualType)
  | array (element : QualType) (size : UInt32)
  | memberPointer (owner : NameId) (element : QualType)
  | named (name : NameId)
  | function (signature : SignatureId)
  | declared (shape : OpaqueShape) (symbol : SymbolId)
  deriving DecidableEq, Repr

inductive NameNode
  | identifier (text : Atom)
  | qualified (base member : NameId)
  | template (identifier : Atom) (args : TypeListId)
  | destructor (identifier : Atom)
  | operator (kind : OperatorKind)
  | conversion (target : QualType)
  | selector (parts : NameListId) (hasArguments : Bool)
  deriving DecidableEq, Repr

inductive Node
  | type (node : TypeNode)
  | name (node : NameNode)
  | typeList (types : List QualType)
  | nameList (names : List NameId)
  | signature (signature : Signature)
  deriving DecidableEq, Repr

def maxRank (ranks : List Nat) : Nat := ranks.foldr max 0

theorem le_maxRank {ranks : List Nat} {r : Nat} (h : r ∈ ranks) : r ≤ maxRank ranks := by
  induction ranks with
  | nil => simp at h
  | cons a rest ih =>
    rw [maxRank, List.foldr_cons, ← maxRank]
    rcases List.mem_cons.mp h with rfl | h
    · exact Nat.le_max_left ..
    · exact Nat.le_trans (ih h) (Nat.le_max_right ..)

theorem maxRank_le {ranks : List Nat} {n : Nat} : maxRank ranks ≤ n ↔ ∀ r ∈ ranks, r ≤ n := by
  refine ⟨fun h r hr => Nat.le_trans (le_maxRank hr) h, fun h => ?_⟩
  induction ranks with
  | nil => simp [maxRank]
  | cons a rest ih =>
    rw [maxRank, List.foldr_cons, ← maxRank]
    exact Nat.max_le.mpr ⟨h a (by simp), ih fun r hr => h r (by simp [hr])⟩

def optionalRank : Option NameId → Nat
  | none => 0
  | some name => name.slot.rank

def Argument.rank (a : Argument) : Nat := max (optionalRank a.name) a.type.rank

namespace Node

def ranks : Node → List Nat
  | type (.pointer element) => [element.rank]
  | type (.reference element) => [element.rank]
  | type (.array element _) => [element.rank]
  | type (.memberPointer owner element) => [owner.slot.rank, element.rank]
  | type (.named spelled) => [spelled.slot.rank]
  | type (.function shape) => [shape.slot.rank]
  | type (.integer _) | type (.float _) | type (.declared _ _) => []
  | name (.qualified base member) => [base.slot.rank, member.slot.rank]
  | name (.template _ args) => [args.slot.rank]
  | name (.conversion target) => [target.rank]
  | name (.selector parts _) => [parts.slot.rank]
  | name (.identifier _) | name (.destructor _) | name (.operator _) => []
  | typeList types => types.map (·.rank)
  | nameList names => names.map (·.slot.rank)
  | signature s => optionalRank s.name :: s.result.rank :: s.arguments.map (·.rank)

def rank (n : Node) : Nat := maxRank n.ranks

def atoms : Node → List Atom
  | name (.identifier text) => [text]
  | name (.template identifier _) => [identifier]
  | name (.destructor identifier) => [identifier]
  | signature s => s.arguments.flatMap (·.defaultValue.toList)
  | _ => []

def atomRank (n : Node) : Nat := maxRank (n.atoms.map (·.slot.rank))

def isType : Node → Bool
  | type _ => true
  | _ => false

def isName : Node → Bool
  | name _ => true
  | _ => false

end Node
end Respell

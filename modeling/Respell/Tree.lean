import Respell.Store

/-!
Trees: types and names with all their parts, as a reader sees them. The store shares equal parts and
names them by handles; the tree of a handle (`Store.typeTree`, `Store.nameTree`) spells every
occurrence out, with texts in place of atoms. Handles that the store knows nothing of stay as
leaves.
-/
namespace Respell

inductive Part
  | type | qualified | name | optionalName | types | names | arguments
  deriving DecidableEq, Repr

inductive Tree : Part → Type
  | undefined : Tree .type
  | void : Tree .type
  | integer (kind : IntegerKind) : Tree .type
  | float (kind : FloatKind) : Tree .type
  | pointer (element : Tree .qualified) : Tree .type
  | reference (element : Tree .qualified) : Tree .type
  | array (element : Tree .qualified) (size : UInt32) : Tree .type
  | memberPointer (owner : Tree .name) (element : Tree .qualified) : Tree .type
  | named (name : Tree .name) : Tree .type
  | function (name : Tree .optionalName) (result : Tree .qualified) (arguments : Tree .arguments)
      (attributes : FunctionAttributes) : Tree .type
  | shapeless (signature : SignatureId) : Tree .type
  | declared (shape : OpaqueShape) (symbol : SymbolId) : Tree .type
  | unknown (type : TypeId) : Tree .type
  | qual (type : Tree .type) (qualifiers : Qualifiers) : Tree .qualified
  | identifier (text : String) : Tree .name
  | qualified (base member : Tree .name) : Tree .name
  | template (identifier : String) (args : Tree .types) : Tree .name
  | destructor (identifier : String) : Tree .name
  | operator (kind : OperatorKind) : Tree .name
  | conversion (target : Tree .qualified) : Tree .name
  | selector (parts : Tree .names) (hasArguments : Bool) : Tree .name
  | unknownName (name : NameId) : Tree .name
  | noName : Tree .optionalName
  | justName (name : Tree .name) : Tree .optionalName
  | noTypes : Tree .types
  | consType (first : Tree .qualified) (rest : Tree .types) : Tree .types
  | noNames : Tree .names
  | consName (first : Tree .name) (rest : Tree .names) : Tree .names
  | noArguments : Tree .arguments
  | consArgument (name : Tree .optionalName) (type : Tree .qualified)
      (defaultValue : Option String) (storage : StorageClass) (rest : Tree .arguments) :
      Tree .arguments
  deriving DecidableEq

namespace Tree

def ofTypes : List (Tree .qualified) → Tree .types
  | [] => noTypes
  | first :: rest => consType first (ofTypes rest)

def ofNames : List (Tree .name) → Tree .names
  | [] => noNames
  | first :: rest => consName first (ofNames rest)

def ofOption : Option (Tree .name) → Tree .optionalName
  | none => noName
  | some name => justName name

structure Arg where
  name : Tree .optionalName
  type : Tree .qualified
  defaultValue : Option String
  storage : StorageClass

def ofArgs : List Arg → Tree .arguments
  | [] => noArguments
  | a :: rest => consArgument a.name a.type a.defaultValue a.storage (ofArgs rest)

end Tree

namespace Store

mutual

def typeTree (s : Store) (t : TypeId) : Tree .type :=
  match t with
  | .undefined => .undefined
  | .void => .void
  | .reserved _ => .unknown t
  | .stored slot =>
    match _h : s.typeNode? slot with
    | none => .unknown t
    | some (.integer kind) => .integer kind
    | some (.float kind) => .float kind
    | some (.pointer element) => .pointer (s.qualTree element)
    | some (.reference element) => .reference (s.qualTree element)
    | some (.array element size) => .array (s.qualTree element) size
    | some (.memberPointer owner element) => .memberPointer (s.nameTree owner) (s.qualTree element)
    | some (.named name) => .named (s.nameTree name)
    | some (.function signature) =>
      match _hf : s.signature? signature with
      | none => .shapeless signature
      | some f =>
        .function (s.optionalNameTree f.name) (s.qualTree f.result)
          (.ofArgs (f.arguments.attach.map fun a => s.argTree a.1)) f.attributes
    | some (.declared shape symbol) => .declared shape symbol
termination_by 3 * t.rank
decreasing_by
  all_goals simp only [TypeId.rank]
  · have := s.rank_lt_of_typeNode? _h element.rank (by simp [Node.ranks]); omega
  · have := s.rank_lt_of_typeNode? _h element.rank (by simp [Node.ranks]); omega
  · have := s.rank_lt_of_typeNode? _h element.rank (by simp [Node.ranks]); omega
  · have := s.rank_lt_of_typeNode? _h owner.slot.rank (by simp [Node.ranks]); omega
  · have := s.rank_lt_of_typeNode? _h element.rank (by simp [Node.ranks]); omega
  · have := s.rank_lt_of_typeNode? _h name.slot.rank (by simp [Node.ranks]); omega
  · have := (s.rank_lt_of_function _h _hf).1; omega
  · have := (s.rank_lt_of_function _h _hf).2.1; omega
  · have := (s.rank_lt_of_function _h _hf).2.2 a.1 a.2; omega

def qualTree (s : Store) (t : QualType) : Tree .qualified :=
  .qual (s.typeTree t.type) t.qualifiers
termination_by 3 * t.rank + 1
decreasing_by exact Nat.lt_succ_self _

def nameTree (s : Store) (n : NameId) : Tree .name :=
  match _h : s.nameNode? n with
  | none => .unknownName n
  | some (.identifier atom) => .identifier (s.text atom)
  | some (.qualified base member) => .qualified (s.nameTree base) (s.nameTree member)
  | some (.template identifier args) =>
    .template (s.text identifier) (.ofTypes ((s.typeList args).attach.map fun t => s.qualTree t.1))
  | some (.destructor identifier) => .destructor (s.text identifier)
  | some (.operator kind) => .operator kind
  | some (.conversion target) => .conversion (s.qualTree target)
  | some (.selector parts hasArguments) =>
    .selector (.ofNames ((s.nameList parts).attach.map fun n => s.nameTree n.1)) hasArguments
termination_by 3 * n.slot.rank
decreasing_by
  · have := s.rank_lt_of_nameNode? _h base.slot.rank (by simp [Node.ranks]); omega
  · have := s.rank_lt_of_nameNode? _h member.slot.rank (by simp [Node.ranks]); omega
  · have := s.rank_lt_of_template _h t.2; omega
  · have := s.rank_lt_of_nameNode? _h target.rank (by simp [Node.ranks]); omega
  · have := s.rank_lt_of_selector _h n.2; omega

def optionalNameTree (s : Store) (n : Option NameId) : Tree .optionalName :=
  match n with
  | none => .noName
  | some n => .justName (s.nameTree n)
termination_by 3 * optionalRank n + 1
decreasing_by simp [optionalRank]

def argTree (s : Store) (a : Argument) : Tree.Arg :=
  { name := s.optionalNameTree a.name
    type := s.qualTree a.type
    defaultValue := a.defaultValue.map s.text
    storage := a.storage }
termination_by 3 * a.rank + 2
decreasing_by
  all_goals simp only [Argument.rank]
  all_goals omega

end

end Store
end Respell

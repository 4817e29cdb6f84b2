import Respell.Proofs.Interning
import Respell.Tree.Intern

/-! Unfoldings of handles. An unfolding is the tree of a handle in which named types, texts and
lists still show their handles, so that what depends on handles can be said by recursion over a
tree. Lists of handles are parts like others here, and one function unfolds parts of every kind.
Main statement: without the handles, an unfolding is the tree of the store (`tree_unfold`). -/
namespace Respell

/-- The tree of a part, with the handles of named types, texts and lists. -/
inductive Unfolding : Part → Type
  | undefined : Unfolding .type
  | void : Unfolding .type
  | integer (kind : IntegerKind) : Unfolding .type
  | float (kind : FloatKind) : Unfolding .type
  | pointer (element : Unfolding .qualified) : Unfolding .type
  | reference (element : Unfolding .qualified) : Unfolding .type
  | array (element : Unfolding .qualified) (size : UInt32) : Unfolding .type
  | memberPointer (owner : Unfolding .name) (element : Unfolding .qualified) : Unfolding .type
  | named (handle : NameId) (name : Unfolding .name) : Unfolding .type
  | function (name : Unfolding .optionalName) (result : Unfolding .qualified)
      (arguments : Unfolding .arguments) (attributes : FunctionAttributes) : Unfolding .type
  | shapeless (signature : SignatureId) : Unfolding .type
  | declared (shape : OpaqueShape) (symbol : SymbolId) : Unfolding .type
  | unknown (type : TypeId) : Unfolding .type
  | qual (type : Unfolding .type) (qualifiers : Qualifiers) : Unfolding .qualified
  | identifier (atom : Atom) (text : String) : Unfolding .name
  | qualified (base member : Unfolding .name) : Unfolding .name
  | template (atom : Atom) (text : String) (list : TypeListId) (args : Unfolding .types) :
      Unfolding .name
  | destructor (atom : Atom) (text : String) : Unfolding .name
  | operator (kind : OperatorKind) : Unfolding .name
  | conversion (target : Unfolding .qualified) : Unfolding .name
  | selector (list : NameListId) (parts : Unfolding .names) (hasArguments : Bool) : Unfolding .name
  | unknownName (name : NameId) : Unfolding .name
  | noName : Unfolding .optionalName
  | justName (name : Unfolding .name) : Unfolding .optionalName
  | noTypes : Unfolding .types
  | consType (first : Unfolding .qualified) (rest : Unfolding .types) : Unfolding .types
  | noNames : Unfolding .names
  | consName (first : Unfolding .name) (rest : Unfolding .names) : Unfolding .names
  | noArguments : Unfolding .arguments
  | consArgument (name : Unfolding .optionalName) (type : Unfolding .qualified)
      (defaultValue : Option (Atom × String)) (storage : StorageClass)
      (rest : Unfolding .arguments) : Unfolding .arguments

namespace Unfolding

def tree : {p : Part} → Unfolding p → Tree p
  | _, undefined => .undefined
  | _, void => .void
  | _, integer kind => .integer kind
  | _, float kind => .float kind
  | _, pointer element => .pointer element.tree
  | _, reference element => .reference element.tree
  | _, array element size => .array element.tree size
  | _, memberPointer owner element => .memberPointer owner.tree element.tree
  | _, named _ name => .named name.tree
  | _, function name result arguments attributes =>
    .function name.tree result.tree arguments.tree attributes
  | _, shapeless signature => .shapeless signature
  | _, declared shape symbol => .declared shape symbol
  | _, unknown type => .unknown type
  | _, qual type qualifiers => .qual type.tree qualifiers
  | _, identifier _ text => .identifier text
  | _, qualified base member => .qualified base.tree member.tree
  | _, template _ text _ args => .template text args.tree
  | _, destructor _ text => .destructor text
  | _, operator kind => .operator kind
  | _, conversion target => .conversion target.tree
  | _, selector _ parts hasArguments => .selector parts.tree hasArguments
  | _, unknownName name => .unknownName name
  | _, noName => .noName
  | _, justName name => .justName name.tree
  | _, noTypes => .noTypes
  | _, consType first rest => .consType first.tree rest.tree
  | _, noNames => .noNames
  | _, consName first rest => .consName first.tree rest.tree
  | _, noArguments => .noArguments
  | _, consArgument name type defaultValue storage rest =>
    .consArgument name.tree type.tree (defaultValue.map (·.2)) storage rest.tree

end Unfolding

namespace Part

def rank : (p : Part) → p.Handle → Nat
  | .type, t => t.rank
  | .qualified, t => t.rank
  | .name, n => n.slot.rank
  | .optionalName, n => optionalRank n
  | .types, ts => maxRank (ts.map (·.rank))
  | .names, ns => maxRank (ns.map (·.slot.rank))
  | .arguments, as => maxRank (as.map (·.rank))

/-- How many steps over parts of one rank unfolding can take. -/
def weight : (p : Part) → p.Handle → Nat
  | .type, _ | .name, _ => 0
  | .qualified, _ | .optionalName, _ => 1
  | .types, (ts : List QualType) => 2 + ts.length
  | .names, (ns : List NameId) => 2 + ns.length
  | .arguments, (as : List Argument) => 2 + as.length

end Part

namespace Store

theorem rank_typeList_lt {s : Store} {name : NameId} {identifier : Atom} {args : TypeListId}
    (h : s.nameNode? name = some (.template identifier args)) :
    Part.rank .types (s.typeList args) < name.slot.rank := by
  have outer := s.rank_lt_of_nameNode? h args.slot.rank (by simp [Node.ranks])
  refine Nat.lt_of_le_of_lt (maxRank_le.mpr ?_) outer
  intro r hr
  obtain ⟨t, ht, rfl⟩ := List.mem_map.mp hr
  exact Nat.le_of_lt (rank_lt_of_mem_typeList ht)

theorem rank_nameList_lt {s : Store} {name : NameId} {parts : NameListId} {hasArguments : Bool}
    (h : s.nameNode? name = some (.selector parts hasArguments)) :
    Part.rank .names (s.nameList parts) < name.slot.rank := by
  have outer := s.rank_lt_of_nameNode? h parts.slot.rank (by simp [Node.ranks])
  refine Nat.lt_of_le_of_lt (maxRank_le.mpr ?_) outer
  intro r hr
  obtain ⟨n, hn, rfl⟩ := List.mem_map.mp hr
  exact Nat.le_of_lt (rank_lt_of_mem_nameList hn)

theorem rank_arguments_lt {s : Store} {slot : Slot} {signature : SignatureId} {f : Signature}
    (h : s.typeNode? slot = some (.function signature)) (hf : s.signature? signature = some f) :
    Part.rank .arguments f.arguments < slot.rank := by
  have outer := s.rank_lt_of_typeNode? h signature.slot.rank (by simp [Node.ranks])
  refine Nat.lt_of_le_of_lt (maxRank_le.mpr ?_) outer
  intro r hr
  refine Nat.le_of_lt (s.rank_lt_of_signature? hf r ?_)
  exact List.mem_cons_of_mem _ (List.mem_cons_of_mem _ hr)

def unfold (s : Store) : (p : Part) → (h : p.Handle) → Unfolding p
  | .type, .undefined => .undefined
  | .type, .void => .void
  | .type, .reserved i => .unknown (.reserved i)
  | .type, .stored slot =>
    match _h : s.typeNode? slot with
    | none => .unknown (.stored slot)
    | some (.integer kind) => .integer kind
    | some (.float kind) => .float kind
    | some (.pointer element) => .pointer (s.unfold .qualified element)
    | some (.reference element) => .reference (s.unfold .qualified element)
    | some (.array element size) => .array (s.unfold .qualified element) size
    | some (.memberPointer owner element) =>
      .memberPointer (s.unfold .name owner) (s.unfold .qualified element)
    | some (.named name) => .named name (s.unfold .name name)
    | some (.function signature) =>
      match _hf : s.signature? signature with
      | none => .shapeless signature
      | some f =>
        .function (s.unfold .optionalName f.name) (s.unfold .qualified f.result)
          (s.unfold .arguments f.arguments) f.attributes
    | some (.declared shape symbol) => .declared shape symbol
  | .qualified, t => .qual (s.unfold .type t.type) t.qualifiers
  | .name, n =>
    match _h : s.nameNode? n with
    | none => .unknownName n
    | some (.identifier atom) => .identifier atom (s.text atom)
    | some (.qualified base member) => .qualified (s.unfold .name base) (s.unfold .name member)
    | some (.template identifier args) =>
      .template identifier (s.text identifier) args (s.unfold .types (s.typeList args))
    | some (.destructor identifier) => .destructor identifier (s.text identifier)
    | some (.operator kind) => .operator kind
    | some (.conversion target) => .conversion (s.unfold .qualified target)
    | some (.selector parts hasArguments) =>
      .selector parts (s.unfold .names (s.nameList parts)) hasArguments
  | .optionalName, none => .noName
  | .optionalName, some n => .justName (s.unfold .name n)
  | .types, [] => .noTypes
  | .types, first :: rest => .consType (s.unfold .qualified first) (s.unfold .types rest)
  | .names, [] => .noNames
  | .names, first :: rest => .consName (s.unfold .name first) (s.unfold .names rest)
  | .arguments, [] => .noArguments
  | .arguments, a :: rest =>
    .consArgument (s.unfold .optionalName a.name) (s.unfold .qualified a.type)
      (a.defaultValue.map fun atom => (atom, s.text atom)) a.storage (s.unfold .arguments rest)
termination_by p h => (p.rank h, p.weight h)
decreasing_by
  -- Parts of a node are older; parts of a list or of a position are not younger, and lighter.
  · exact .left _ _ (s.rank_lt_of_typeNode? _h element.rank (by simp [Node.ranks]))
  · exact .left _ _ (s.rank_lt_of_typeNode? _h element.rank (by simp [Node.ranks]))
  · exact .left _ _ (s.rank_lt_of_typeNode? _h element.rank (by simp [Node.ranks]))
  · exact .left _ _ (s.rank_lt_of_typeNode? _h owner.slot.rank (by simp [Node.ranks]))
  · exact .left _ _ (s.rank_lt_of_typeNode? _h element.rank (by simp [Node.ranks]))
  · exact .left _ _ (s.rank_lt_of_typeNode? _h name.slot.rank (by simp [Node.ranks]))
  · exact .left _ _ (s.rank_lt_of_function _h _hf).1
  · exact .left _ _ (s.rank_lt_of_function _h _hf).2.1
  · exact .left _ _ (rank_arguments_lt _h _hf)
  · exact .right' _ (Nat.le_refl _) (by simp [Part.weight])
  · exact .left _ _ (s.rank_lt_of_nameNode? _h base.slot.rank (by simp [Node.ranks]))
  · exact .left _ _ (s.rank_lt_of_nameNode? _h member.slot.rank (by simp [Node.ranks]))
  · exact .left _ _ (rank_typeList_lt _h)
  · exact .left _ _ (s.rank_lt_of_nameNode? _h target.rank (by simp [Node.ranks]))
  · exact .left _ _ (rank_nameList_lt _h)
  · exact .right' _ (Nat.le_refl _) (by simp [Part.weight])
  · exact .right' _ (Nat.le_max_left ..) (by simp only [Part.weight, List.length_cons]; omega)
  · exact .right' _ (Nat.le_max_right ..) (by simp [Part.weight])
  · exact .right' _ (Nat.le_max_left ..) (by simp only [Part.weight, List.length_cons]; omega)
  · exact .right' _ (Nat.le_max_right ..) (by simp [Part.weight])
  · exact .right' _ (Nat.le_trans (Nat.le_max_left ..) (Nat.le_max_left ..))
      (by simp only [Part.weight, List.length_cons]; omega)
  · exact .right' _ (Nat.le_trans (Nat.le_max_right ..) (Nat.le_max_left ..))
      (by simp only [Part.weight, List.length_cons]; omega)
  · exact .right' _ (Nat.le_max_right ..) (by simp [Part.weight])

/-! ### One step -/

def unfoldNode (s : Store) : TypeNode → Unfolding .type
  | .integer kind => .integer kind
  | .float kind => .float kind
  | .pointer element => .pointer (s.unfold .qualified element)
  | .reference element => .reference (s.unfold .qualified element)
  | .array element size => .array (s.unfold .qualified element) size
  | .memberPointer owner element =>
    .memberPointer (s.unfold .name owner) (s.unfold .qualified element)
  | .named name => .named name (s.unfold .name name)
  | .function signature =>
    match s.signature? signature with
    | none => .shapeless signature
    | some f =>
      .function (s.unfold .optionalName f.name) (s.unfold .qualified f.result)
        (s.unfold .arguments f.arguments) f.attributes
  | .declared shape symbol => .declared shape symbol

def unfoldName (s : Store) : NameNode → Unfolding .name
  | .identifier atom => .identifier atom (s.text atom)
  | .qualified base member => .qualified (s.unfold .name base) (s.unfold .name member)
  | .template identifier args =>
    .template identifier (s.text identifier) args (s.unfold .types (s.typeList args))
  | .destructor identifier => .destructor identifier (s.text identifier)
  | .operator kind => .operator kind
  | .conversion target => .conversion (s.unfold .qualified target)
  | .selector parts hasArguments =>
    .selector parts (s.unfold .names (s.nameList parts)) hasArguments

variable {s t : Store}

-- The equations are made here, once for the many proofs that ask for them.
attribute [local simp] unfoldNode unfoldName Unfolding.tree

@[simp] theorem unfold_undefined : s.unfold .type .undefined = .undefined := by rw [unfold]

@[simp] theorem unfold_void : s.unfold .type .void = .void := by rw [unfold]

@[simp] theorem unfold_reserved (i : Fin 14) :
    s.unfold .type (.reserved i) = .unknown (.reserved i) := by rw [unfold]

@[simp] theorem unfold_qual (t : QualType) :
    s.unfold .qualified t = .qual (s.unfold .type t.type) t.qualifiers := by rw [unfold]

@[simp] theorem unfold_noName : s.unfold .optionalName none = .noName := by rw [unfold]

@[simp] theorem unfold_justName (n : NameId) :
    s.unfold .optionalName (some n) = .justName (s.unfold .name n) := by rw [unfold.eq_def]

@[simp] theorem unfold_noTypes : s.unfold .types [] = .noTypes := by rw [unfold]

@[simp] theorem unfold_consType (first : QualType) (rest : List QualType) :
    s.unfold .types (first :: rest) =
      .consType (s.unfold .qualified first) (s.unfold .types rest) := by rw [unfold.eq_def]

@[simp] theorem unfold_noNames : s.unfold .names [] = .noNames := by rw [unfold]

@[simp] theorem unfold_consName (first : NameId) (rest : List NameId) :
    s.unfold .names (first :: rest) =
      .consName (s.unfold .name first) (s.unfold .names rest) := by rw [unfold.eq_def]

@[simp] theorem unfold_noArguments : s.unfold .arguments [] = .noArguments := by rw [unfold]

@[simp] theorem unfold_consArgument (a : Argument) (rest : List Argument) :
    s.unfold .arguments (a :: rest) =
      .consArgument (s.unfold .optionalName a.name) (s.unfold .qualified a.type)
        (a.defaultValue.map fun d => (d, s.text d)) a.storage (s.unfold .arguments rest) := by
  rw [unfold.eq_def]

theorem unfold_of_typeNode? {slot : Slot} {n : TypeNode} (h : s.typeNode? slot = some n) :
    s.unfold .type (.stored slot) = s.unfoldNode n := by
  rw [unfold]
  split <;> rename_i node <;> cases node.symm.trans h <;> simp only [unfoldNode]
  split <;> rename_i shape <;> simp only [shape]

theorem unfold_of_typeNode?_eq_none {slot : Slot} (h : s.typeNode? slot = none) :
    s.unfold .type (.stored slot) = .unknown (.stored slot) := by
  rw [unfold]
  split <;> rename_i node <;> first | rfl | cases node.symm.trans h

theorem unfold_of_nameNode? {name : NameId} {n : NameNode} (h : s.nameNode? name = some n) :
    s.unfold .name name = s.unfoldName n := by
  rw [unfold]
  split <;> rename_i node <;> cases node.symm.trans h <;> simp only [unfoldName]

theorem unfold_of_nameNode?_eq_none {name : NameId} (h : s.nameNode? name = none) :
    s.unfold .name name = .unknownName name := by
  rw [unfold]
  split <;> rename_i node <;> first | rfl | cases node.symm.trans h

/-- Induction over the parts of a handle, with a case for each kind of node. -/
@[elab_as_elim]
theorem part_induction (s : Store) {motive : (p : Part) → p.Handle → Prop}
    (undefined : motive .type .undefined)
    (void : motive .type .void)
    (reserved : ∀ i, motive .type (.reserved i))
    (unknown : ∀ slot, s.typeNode? slot = none → motive .type (.stored slot))
    (integer : ∀ slot kind, s.typeNode? slot = some (.integer kind) → motive .type (.stored slot))
    (float : ∀ slot kind, s.typeNode? slot = some (.float kind) → motive .type (.stored slot))
    (pointer : ∀ slot element, s.typeNode? slot = some (.pointer element) →
      motive .qualified element → motive .type (.stored slot))
    (reference : ∀ slot element, s.typeNode? slot = some (.reference element) →
      motive .qualified element → motive .type (.stored slot))
    (array : ∀ slot element size, s.typeNode? slot = some (.array element size) →
      motive .qualified element → motive .type (.stored slot))
    (memberPointer : ∀ slot owner element, s.typeNode? slot = some (.memberPointer owner element) →
      motive .name owner → motive .qualified element → motive .type (.stored slot))
    (named : ∀ slot name, s.typeNode? slot = some (.named name) → motive .name name →
      motive .type (.stored slot))
    (shapeless : ∀ slot signature, s.typeNode? slot = some (.function signature) →
      s.signature? signature = none → motive .type (.stored slot))
    (function : ∀ slot signature, s.typeNode? slot = some (.function signature) →
      ∀ f : Signature, s.signature? signature = some f → motive .optionalName f.name →
        motive .qualified f.result → motive .arguments f.arguments → motive .type (.stored slot))
    (declared : ∀ slot shape symbol, s.typeNode? slot = some (.declared shape symbol) →
      motive .type (.stored slot))
    (qual : ∀ t : QualType, motive .type t.type → motive .qualified t)
    (unknownName : ∀ n : NameId, s.nameNode? n = none → motive .name n)
    (identifier : ∀ atom (n : NameId), s.nameNode? n = some (.identifier atom) → motive .name n)
    (qualified : ∀ base member (n : NameId), s.nameNode? n = some (.qualified base member) →
      motive .name base → motive .name member → motive .name n)
    (template : ∀ atom args (n : NameId), s.nameNode? n = some (.template atom args) →
      motive .types (s.typeList args) → motive .name n)
    (destructor : ∀ atom (n : NameId), s.nameNode? n = some (.destructor atom) → motive .name n)
    (operator : ∀ kind (n : NameId), s.nameNode? n = some (.operator kind) → motive .name n)
    (conversion : ∀ target (n : NameId), s.nameNode? n = some (.conversion target) →
      motive .qualified target → motive .name n)
    (selector : ∀ parts hasArguments (n : NameId),
      s.nameNode? n = some (.selector parts hasArguments) → motive .names (s.nameList parts) →
        motive .name n)
    (noName : motive .optionalName none)
    (justName : ∀ n : NameId, motive .name n → motive .optionalName (some n))
    (noTypes : motive .types [])
    (consType : ∀ (first : QualType) (rest : List QualType), motive .qualified first →
      motive .types rest → motive .types (first :: rest))
    (noNames : motive .names [])
    (consName : ∀ (first : NameId) (rest : List NameId), motive .name first →
      motive .names rest → motive .names (first :: rest))
    (noArguments : motive .arguments [])
    (consArgument : ∀ (a : Argument) (rest : List Argument), motive .optionalName a.name →
      motive .qualified a.type → motive .arguments rest → motive .arguments (a :: rest))
    (p : Part) (h : p.Handle) : motive p h :=
  unfold.induct s motive undefined void reserved unknown integer float pointer reference array
    memberPointer named shapeless function declared qual unknownName identifier qualified template
    destructor operator conversion selector noName justName noTypes consType noNames consName
    noArguments consArgument p h

/-! ### Without the handles -/

end Store

def Tree.isUndefined : Tree .qualified → Bool
  | qual undefined _ => true
  | _ => false

theorem Tree.isUndefined_of_ne {t : Tree .type} (present : t ≠ .undefined)
    (qualifiers : Qualifiers) : (qual t qualifiers).isUndefined = false := by
  cases t <;> first | rfl | exact absurd rfl present

namespace Store

variable {s t : Store}

def partTree (s : Store) : (p : Part) → p.Handle → Tree p
  | .type, t => s.typeTree t
  | .qualified, t => s.qualTree t
  | .name, n => s.nameTree n
  | .optionalName, n => s.optionalNameTree n
  | .types, ts => .ofTypes (ts.map s.qualTree)
  | .names, ns => .ofNames (ns.map s.nameTree)
  | .arguments, as => .ofArgs (as.map s.argTree)

theorem tree_unfold (s : Store) (p : Part) (h : p.Handle) :
    (s.unfold p h).tree = s.partTree p h := by
  induction p, h using s.part_induction with
  | undefined | void | reserved => simp [partTree, typeTree, Unfolding.tree]
  | noName => simp [partTree, optionalNameTree, Unfolding.tree]
  | noTypes | noNames | noArguments =>
    simp [partTree, Unfolding.tree, Tree.ofTypes, Tree.ofNames, Tree.ofArgs]
  | unknown slot node =>
    rw [unfold_of_typeNode?_eq_none node, partTree, typeTree]
    split <;> rename_i other <;> cases node.symm.trans other
    rfl
  | integer slot kind node | float slot kind node | declared slot shape symbol node =>
    rw [unfold_of_typeNode? node, partTree, typeTree]
    split <;> rename_i other <;> cases node.symm.trans other
    rfl
  | pointer slot element node ih | reference slot element node ih
  | array slot element size node ih | named slot name node ih =>
    rw [unfold_of_typeNode? node, partTree, typeTree]
    split <;> rename_i other <;> cases node.symm.trans other
    simp only [unfoldNode, Unfolding.tree, ih, partTree]
  | memberPointer slot owner element node ihOwner ihElement =>
    rw [unfold_of_typeNode? node, partTree, typeTree]
    split <;> rename_i other <;> cases node.symm.trans other
    simp only [unfoldNode, Unfolding.tree, ihOwner, ihElement, partTree]
  | shapeless slot signature node shape =>
    rw [unfold_of_typeNode? node, partTree, typeTree]
    split <;> rename_i other <;> cases node.symm.trans other
    split <;> rename_i other <;> cases shape.symm.trans other
    simp only [unfoldNode, shape, Unfolding.tree]
  | function slot signature node f shape ihName ihResult ihArguments =>
    rw [unfold_of_typeNode? node, partTree, typeTree]
    split <;> rename_i other <;> cases node.symm.trans other
    split <;> rename_i other <;> cases shape.symm.trans other
    simp only [unfoldNode, shape, Unfolding.tree, ihName, ihResult, ihArguments, partTree,
      List.attach_map_val]
  | qual t ih =>
    simp only [unfold_qual, Unfolding.tree, ih, partTree, qualTree]
  | unknownName n node =>
    rw [unfold_of_nameNode?_eq_none node, partTree, nameTree]
    split <;> rename_i other <;> cases node.symm.trans other
    rfl
  | identifier atom n node | destructor atom n node | operator kind n node =>
    rw [unfold_of_nameNode? node, partTree, nameTree]
    split <;> rename_i other <;> cases node.symm.trans other
    rfl
  | qualified base member n node ihBase ihMember =>
    rw [unfold_of_nameNode? node, partTree, nameTree]
    split <;> rename_i other <;> cases node.symm.trans other
    simp only [unfoldName, Unfolding.tree, ihBase, ihMember, partTree]
  | conversion target n node ih =>
    rw [unfold_of_nameNode? node, partTree, nameTree]
    split <;> rename_i other <;> cases node.symm.trans other
    simp only [unfoldName, Unfolding.tree, ih, partTree]
  | template atom args n node ih | selector parts hasArguments n node ih =>
    rw [unfold_of_nameNode? node, partTree, nameTree]
    split <;> rename_i other <;> cases node.symm.trans other
    simp only [unfoldName, Unfolding.tree, ih, partTree, List.map_attach_eq_pmap, List.pmap_eq_map]
  | justName n ih =>
    simp only [unfold_justName, Unfolding.tree, ih, partTree, optionalNameTree]
  | consType first rest ihFirst ihRest | consName first rest ihFirst ihRest =>
    simp only [unfold_consType, unfold_consName, Unfolding.tree, ihFirst, ihRest]
    rfl
  | consArgument a rest ihName ihType ihRest =>
    simp only [unfold_consArgument, Unfolding.tree, ihName, ihType, ihRest, partTree, List.map_cons,
      Tree.ofArgs, argTree, Option.map_map]
    rfl

theorem eq_undefined_of_partTree {type : TypeId} (h : s.partTree .type type = .undefined) :
    type = .undefined := by
  rw [← tree_unfold] at h
  cases type with
  | undefined => rfl
  | void | reserved => simp [Unfolding.tree] at h
  | stored slot =>
    cases node : s.typeNode? slot with
    | none => simp [unfold_of_typeNode?_eq_none node, Unfolding.tree] at h
    | some n =>
      rw [unfold_of_typeNode? node] at h
      cases n with
      | function signature =>
        rw [unfoldNode] at h
        split at h <;> simp [Unfolding.tree] at h
      | _ => simp [unfoldNode, Unfolding.tree] at h

theorem isUndefined_partTree (s : Store) (t : QualType) :
    (s.partTree .qualified t).isUndefined = t.isUndefined := by
  obtain ⟨type, qualifiers⟩ := t
  rw [partTree, qualTree]
  by_cases absent : type = .undefined
  · subst absent
    simp [typeTree, Tree.isUndefined, QualType.isUndefined]
  · have present : s.typeTree type ≠ .undefined := fun h => absent (eq_undefined_of_partTree h)
    rw [Tree.isUndefined_of_ne present]
    simpa [QualType.isUndefined] using absent

end Store
end Respell

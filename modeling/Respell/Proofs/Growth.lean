import Respell.Proofs.Unfolding

/-! Handles in tables that grow. An interner keeps a node whatever it mentions, so a handle may lead
back to itself there, and it is read down to as many handles below each other as there are entries.
A part is settled in a store when later entries cannot give it a new meaning. Main statements: a
settled part reads in every later interner as in the store (`unfold_of_extends`), and therefore in
every later store (`unfold_extend`, `partTree_extend`). -/
namespace Respell

namespace Interner

/-- How the types and names inside a part read. -/
structure Readings where
  type : TypeId → Unfolding .type
  name : NameId → Unfolding .name

namespace Readings

variable (r : Readings) (i : Interner)

def part : (p : Part) → p.Handle → Unfolding p
  | .type, t => r.type t
  | .qualified, t => .qual (r.type t.type) t.qualifiers
  | .name, n => r.name n
  | .optionalName, none => .noName
  | .optionalName, some n => .justName (r.name n)
  | .types, (ts : List QualType) =>
    ts.foldr (fun t rest => .consType (.qual (r.type t.type) t.qualifiers) rest) .noTypes
  | .names, (ns : List NameId) => ns.foldr (fun n rest => .consName (r.name n) rest) .noNames
  | .arguments, (as : List Argument) =>
    as.foldr (fun a rest =>
      .consArgument (a.name.elim .noName fun n => .justName (r.name n))
        (.qual (r.type a.type.type) a.type.qualifiers)
        (a.defaultValue.map fun d => (d, i.text d)) a.storage rest) .noArguments

def typeNode : TypeNode → Unfolding .type
  | .integer kind => .integer kind
  | .float kind => .float kind
  | .pointer element => .pointer (r.part i .qualified element)
  | .reference element => .reference (r.part i .qualified element)
  | .array element size => .array (r.part i .qualified element) size
  | .memberPointer owner element =>
    .memberPointer (r.part i .name owner) (r.part i .qualified element)
  | .named name => .named name (r.part i .name name)
  | .function signature =>
    match i.signature? signature with
    | none => .shapeless signature
    | some f =>
      .function (r.part i .optionalName f.name) (r.part i .qualified f.result)
        (r.part i .arguments f.arguments) f.attributes
  | .declared shape symbol => .declared shape symbol

def nameNode : NameNode → Unfolding .name
  | .identifier atom => .identifier atom (i.text atom)
  | .qualified base member => .qualified (r.part i .name base) (r.part i .name member)
  | .template identifier args =>
    .template identifier (i.text identifier) args (r.part i .types (i.typeList args))
  | .destructor identifier => .destructor identifier (i.text identifier)
  | .operator kind => .operator kind
  | .conversion target => .conversion (r.part i .qualified target)
  | .selector parts hasArguments =>
    .selector parts (r.part i .names (i.nameList parts)) hasArguments

end Readings

/-- Readings that go so many handles deep. -/
def readings (i : Interner) : Nat → Readings
  | 0 => ⟨.unknown, .unknownName⟩
  | depth + 1 =>
    { type := fun
        | .undefined => .undefined
        | .void => .void
        | .reserved index => .unknown (.reserved index)
        | .stored slot =>
          match i.typeNode? slot with
          | none => .unknown (.stored slot)
          | some n => (i.readings depth).typeNode i n
      name := fun n =>
        match i.nameNode? n with
        | none => .unknownName n
        | some node => (i.readings depth).nameNode i node }

/-- The unfolding of a part. A handle that leads on through more handles than there are entries
leads back to itself and has no tree; it reads as unknown down there. -/
def unfold (i : Interner) (p : Part) (h : p.Handle) : Unfolding p :=
  (i.readings (i.nodes.size + 1)).part i p h

end Interner

namespace Store

open Interner (Readings node? typeNode? nameNode? signature? typeList nameList)

variable {s t : Store} {i : Interner} {r : Readings}

/-! ### Settled parts -/

/-- Later entries cannot give a part a new meaning: the store covers all its handles. -/
def Settled (s : Store) : (p : Part) → p.Handle → Prop
  | .type, t => s.Covers t.rank
  | .qualified, t => s.Covers t.rank
  | .name, n => s.Covers n.slot.rank
  | .optionalName, n => s.Covers (optionalRank n)
  | .types, ts => ∀ t ∈ ts, s.Covers t.rank
  | .names, ns => ∀ n ∈ ns, s.Covers n.slot.rank
  | .arguments, as => ∀ a ∈ as, s.Covers a.rank ∧ ∀ d ∈ a.defaultValue, s.CoversAtom d

theorem Settled.extend {p : Part} {h : p.Handle} (settled : s.Settled p h) (e : s.Extends t) :
    t.Settled p h := by
  cases p with
  | type | qualified | name | optionalName => exact Covers.extend settled e
  | types | names => exact fun x hx => (settled x hx).extend e
  | arguments =>
    intro a ha
    obtain ⟨covers, atoms⟩ := settled a ha
    exact ⟨covers.extend e, fun d hd => (atoms d hd).extend e⟩

theorem settled_typeList {list : TypeListId} (h : s.Covers list.slot.rank) :
    s.Settled .types (s.typeList list) :=
  fun _ ht => h.mono (Nat.le_of_lt (rank_lt_of_mem_typeList ht))

theorem settled_nameList {list : NameListId} (h : s.Covers list.slot.rank) :
    s.Settled .names (s.nameList list) :=
  fun _ hn => h.mono (Nat.le_of_lt (rank_lt_of_mem_nameList hn))

theorem settled_arguments {signature : SignatureId} {f : Signature}
    (h : s.signature? signature = some f) : s.Settled .arguments f.arguments := by
  intro a ha
  constructor
  · refine covers_of_signature? h ?_
    exact List.mem_cons_of_mem _ (List.mem_cons_of_mem _ (List.mem_map_of_mem ha))
  · intro d hd
    have fits := fits_of_node? (node?_of_signature? h)
    refine fits.coversAtom (List.mem_flatMap.mpr ⟨a, ha, ?_⟩)
    simpa using hd

/-! ### Reading settled parts -/

/-- The readings are those of the store, on settled handles of lower rank. -/
structure Agrees (s : Store) (r : Readings) (rank : Nat) : Prop where
  type : ∀ t : TypeId, t.rank < rank → s.Settled .type t → r.type t = s.unfold .type t
  name : ∀ n : NameId, n.slot.rank < rank → s.Settled .name n → r.name n = s.unfold .name n

namespace Agrees

variable {rank : Nat} (agrees : s.Agrees r rank) (e : s.toInterner.Extends i)

include agrees

theorem qualified {t : QualType} (lower : t.rank < rank) (settled : s.Settled .qualified t) :
    Unfolding.qual (r.type t.type) t.qualifiers = s.unfold .qualified t := by
  rw [unfold_qual, agrees.type t.type lower settled]

theorem optionalName {n : Option NameId} (lower : optionalRank n < rank)
    (settled : s.Settled .optionalName n) :
    (n.elim .noName fun n => .justName (r.name n)) = s.unfold .optionalName n := by
  cases n with
  | none => rw [unfold_noName, Option.elim]
  | some n => rw [unfold_justName, Option.elim, agrees.name n lower settled]

theorem types {ts : List QualType} (lower : Part.rank .types ts < rank)
    (settled : s.Settled .types ts) : r.part i .types ts = s.unfold .types ts := by
  induction ts with
  | nil => rw [unfold_noTypes]; rfl
  | cons t rest ih =>
    obtain ⟨one, others⟩ := Nat.max_lt.mp lower
    have rest := ih others fun t ht => settled t (List.mem_cons_of_mem _ ht)
    rw [unfold_consType, ← agrees.qualified one (settled t List.mem_cons_self), ← rest]
    rfl

theorem names {ns : List NameId} (lower : Part.rank .names ns < rank)
    (settled : s.Settled .names ns) : r.part i .names ns = s.unfold .names ns := by
  induction ns with
  | nil => rw [unfold_noNames]; rfl
  | cons n rest ih =>
    obtain ⟨one, others⟩ := Nat.max_lt.mp lower
    have rest := ih others fun n hn => settled n (List.mem_cons_of_mem _ hn)
    rw [unfold_consName, ← agrees.name n one (settled n List.mem_cons_self), ← rest]
    rfl

include e

theorem arguments {as : List Argument} (lower : Part.rank .arguments as < rank)
    (settled : s.Settled .arguments as) : r.part i .arguments as = s.unfold .arguments as := by
  induction as with
  | nil => rw [unfold_noArguments]; rfl
  | cons a rest ih =>
    obtain ⟨one, others⟩ := Nat.max_lt.mp lower
    obtain ⟨name, type⟩ := Nat.max_lt.mp one
    obtain ⟨covers, atoms⟩ := settled a List.mem_cons_self
    have rest := ih others fun b hb => settled b (List.mem_cons_of_mem _ hb)
    have texts : a.defaultValue.map (fun d => (d, s.text d)) =
        a.defaultValue.map (fun d => (d, i.text d)) :=
      Option.map_congr fun d hd => by rw [text_of_extends e (atoms d hd)]
    rw [unfold_consArgument, ← agrees.optionalName name (covers.mono (Nat.le_max_left ..)),
      ← agrees.qualified type (covers.mono (Nat.le_max_right ..)), ← rest, texts]
    rfl

theorem part (p : Part) (h : p.Handle) (lower : p.rank h < rank) (settled : s.Settled p h) :
    r.part i p h = s.unfold p h := by
  cases p with
  | type => exact agrees.type h lower settled
  | name => exact agrees.name h lower settled
  | qualified => exact agrees.qualified lower settled
  | optionalName =>
    rw [← agrees.optionalName lower settled]
    cases h <;> rfl
  | types => exact agrees.types lower settled
  | names => exact agrees.names lower settled
  | arguments => exact agrees.arguments e lower settled

theorem typeNode {slot : Slot} {n : TypeNode} (node : s.typeNode? slot = some n)
    (within : slot.rank ≤ rank) : r.typeNode i n = s.unfoldNode n := by
  have covers {k : Nat} (listed : k ∈ (Node.type n).ranks) : s.Covers k :=
    covers_of_typeNode? node listed
  have lower {k : Nat} (listed : k ∈ (Node.type n).ranks) : k < rank :=
    Nat.lt_of_lt_of_le (rank_lt_of_typeNode? node k listed) within
  cases n with
  | integer | float | declared => rfl
  | pointer element | reference element | array element =>
    have listed : element.rank ∈ [element.rank] := List.mem_singleton_self _
    have inner := agrees.part e .qualified element (lower listed) (covers listed)
    rw [Readings.typeNode, unfoldNode, inner]
  | memberPointer owner element =>
    have outer := agrees.part e .name owner (lower (by simp [Node.ranks, Part.rank]))
      (covers (by simp [Node.ranks]))
    have inner := agrees.part e .qualified element (lower (by simp [Node.ranks, Part.rank]))
      (covers (by simp [Node.ranks]))
    rw [Readings.typeNode, unfoldNode, outer, inner]
  | named name =>
    have inner := agrees.part e .name name (lower (by simp [Node.ranks, Part.rank]))
      (covers (by simp [Node.ranks]))
    rw [Readings.typeNode, unfoldNode, inner]
  | function signature =>
    have listed := covers (k := signature.slot.rank) (by simp [Node.ranks])
    have same : i.signature? signature = s.signature? signature := by
      simp only [signature?, node?_of_extends e listed]
    rw [Readings.typeNode, unfoldNode, same]
    cases shape : s.signature? signature with
    | none => rfl
    | some f =>
      obtain ⟨outer, result, -⟩ := rank_lt_of_function node shape
      have name := agrees.part e .optionalName f.name (Nat.lt_of_lt_of_le outer within)
        (covers_of_signature? shape (by simp [Node.ranks]))
      have result := agrees.part e .qualified f.result (Nat.lt_of_lt_of_le result within)
        (covers_of_signature? shape (by simp [Node.ranks]))
      have arguments := agrees.part e .arguments f.arguments
        (Nat.lt_of_lt_of_le (rank_arguments_lt node shape) within) (settled_arguments shape)
      simp only [name, result, arguments]

theorem nameNode {name : NameId} {n : NameNode} (node : s.nameNode? name = some n)
    (within : name.slot.rank ≤ rank) : r.nameNode i n = s.unfoldName n := by
  have covers {k : Nat} (listed : k ∈ (Node.name n).ranks) : s.Covers k :=
    covers_of_nameNode? node listed
  have lower {k : Nat} (listed : k ∈ (Node.name n).ranks) : k < rank :=
    Nat.lt_of_lt_of_le (rank_lt_of_nameNode? node k listed) within
  have text {a : Atom} (mentioned : a ∈ (Node.name n).atoms) : i.text a = s.text a :=
    text_of_extends e ((fits_of_node? (node?_of_nameNode? node)).coversAtom mentioned)
  cases n with
  | operator => rfl
  | identifier atom | destructor atom =>
    rw [Readings.nameNode, unfoldName, text (by simp [Node.atoms])]
  | qualified base member =>
    have outer := agrees.part e .name base (lower (by simp [Node.ranks, Part.rank]))
      (covers (by simp [Node.ranks]))
    have inner := agrees.part e .name member (lower (by simp [Node.ranks, Part.rank]))
      (covers (by simp [Node.ranks]))
    rw [Readings.nameNode, unfoldName, outer, inner]
  | template identifier args =>
    have listed := covers (k := args.slot.rank) (by simp [Node.ranks])
    have same : i.typeList args = s.typeList args := by
      simp only [typeList, node?_of_extends e listed]
    have inner := agrees.part e .types (s.typeList args)
      (Nat.lt_of_lt_of_le (rank_typeList_lt node) within) (settled_typeList listed)
    rw [Readings.nameNode, unfoldName, text (by simp [Node.atoms]), same, inner]
  | conversion target =>
    have inner := agrees.part e .qualified target (lower (by simp [Node.ranks, Part.rank]))
      (covers (by simp [Node.ranks, QualType.rank]))
    rw [Readings.nameNode, unfoldName, inner]
  | selector parts hasArguments =>
    have listed := covers (k := parts.slot.rank) (by simp [Node.ranks])
    have same : i.nameList parts = s.nameList parts := by
      simp only [nameList, node?_of_extends e listed]
    have inner := agrees.part e .names (s.nameList parts)
      (Nat.lt_of_lt_of_le (rank_nameList_lt node) within) (settled_nameList listed)
    rw [Readings.nameNode, unfoldName, same, inner]

end Agrees

theorem agrees_readings (e : s.toInterner.Extends i) (depth : Nat) :
    s.Agrees (i.readings depth) depth := by
  induction depth with
  | zero => exact ⟨fun _ lower => absurd lower (Nat.not_lt_zero _),
      fun _ lower => absurd lower (Nat.not_lt_zero _)⟩
  | succ depth ih =>
    constructor
    · intro t lower settled
      cases t with
      | undefined | void | reserved => simp [Interner.readings]
      | stored slot =>
        have same : i.typeNode? slot = s.typeNode? slot := by
          simp only [typeNode?, node?_of_extends e settled]
        simp only [Interner.readings, same]
        cases node : s.typeNode? slot with
        | none => rw [unfold_of_typeNode?_eq_none node]
        | some n =>
          rw [unfold_of_typeNode? node]
          exact ih.typeNode e node (Nat.le_of_lt_succ lower)
    · intro n lower settled
      have same : i.nameNode? n = s.nameNode? n := by
        simp only [nameNode?, node?_of_extends e settled]
      simp only [Interner.readings, same]
      cases node : s.nameNode? n with
      | none => rw [unfold_of_nameNode?_eq_none node]
      | some m =>
        rw [unfold_of_nameNode? node]
        exact ih.nameNode e node (Nat.le_of_lt_succ lower)

theorem rank_le_of_settled {p : Part} {h : p.Handle} (settled : s.Settled p h) :
    s.Covers (p.rank h) := by
  cases p with
  | type | qualified | name | optionalName => exact settled
  | types | names =>
    refine maxRank_le.mpr fun r hr => ?_
    obtain ⟨x, hx, rfl⟩ := List.mem_map.mp hr
    exact settled x hx
  | arguments =>
    refine maxRank_le.mpr fun r hr => ?_
    obtain ⟨a, ha, rfl⟩ := List.mem_map.mp hr
    exact (settled a ha).1

/-- A settled part reads in every later interner as it does in the store. -/
theorem unfold_of_extends (e : s.toInterner.Extends i) (p : Part) (h : p.Handle)
    (settled : s.Settled p h) : i.unfold p h = s.unfold p h := by
  have deep : p.rank h < i.nodes.size + 1 :=
    Nat.lt_succ_of_le (Nat.le_trans (rank_le_of_settled settled) (size_le_of_extends e))
  exact (agrees_readings e _).part e p h deep settled

theorem unfold_extend (e : s.Extends t) (p : Part) (h : p.Handle) (settled : s.Settled p h) :
    t.unfold p h = s.unfold p h := by
  rw [← unfold_of_extends (.refl t.toInterner) p h (settled.extend e)]
  exact unfold_of_extends e.toExtends p h settled

theorem partTree_extend (e : s.Extends t) {p : Part} {h : p.Handle} (settled : s.Settled p h) :
    t.partTree p h = s.partTree p h := by
  rw [← tree_unfold, ← tree_unfold, unfold_extend e p h settled]

end Store
end Respell

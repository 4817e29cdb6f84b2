import Respell.Interner

/-!
The store: an interner in which every type, name, list and signature came after its parts. An entry
mentions only texts and entries that came before it, so the entries form an acyclic graph, and
following handles always ends: `rank_lt_of_node?` is the measure. Interning keeps every earlier
entry (`Store.Extends`) and finds a node that is already there.
-/
namespace Respell

structure Store extends Interner where
  /-- The texts of a node are in the table. -/
  atoms_known : ∀ i (h : i < nodes.size), nodes[i].atomRank ≤ texts.size
  /-- The parts of a node came before it. -/
  parts_older : ∀ i (h : i < nodes.size), nodes[i].rank ≤ i

abbrev Storing := StateM Store

namespace Store

open Interner (node? typeNode? nameNode? typeList nameList signature?)

def ofTexts (texts : TextTable) : Store where
  toInterner := .ofTexts texts
  atoms_known := by simp [Interner.ofTexts]
  parts_older := by simp [Interner.ofTexts]

def initial : Store := ofTexts .common

instance : Inhabited Store := ⟨initial⟩

/-! ### Parts are older -/

-- The equations are made here, once for the many proofs that ask for them.
attribute [local simp] Node.ranks Node.atoms

theorem rank_lt_of_node? {s : Store} {slot : Slot} {n : Node} (h : s.node? slot = some n) :
    n.rank < slot.rank := by
  cases slot with
  | foreign => simp [node?] at h
  | entry i =>
    obtain ⟨hi, rfl⟩ := Array.getElem?_eq_some_iff.mp h
    exact Nat.lt_succ_of_le (s.parts_older i hi)

theorem node?_of_typeNode? {s : Store} {slot : Slot} {n : TypeNode}
    (h : s.typeNode? slot = some n) : s.node? slot = some (.type n) := by
  unfold typeNode? at h
  split at h <;> simp_all

theorem node?_of_nameNode? {s : Store} {name : NameId} {n : NameNode}
    (h : s.nameNode? name = some n) : s.node? name.slot = some (.name n) := by
  unfold nameNode? at h
  split at h <;> simp_all

theorem node?_of_signature? {s : Store} {signature : SignatureId} {n : Signature}
    (h : s.signature? signature = some n) : s.node? signature.slot = some (.signature n) := by
  unfold signature? at h
  split at h <;> simp_all

theorem rank_lt_of_typeNode? {s : Store} {slot : Slot} {n : TypeNode}
    (h : s.typeNode? slot = some n) : ∀ r ∈ (Node.type n).ranks, r < slot.rank :=
  fun _ hr => Nat.lt_of_le_of_lt (le_maxRank hr) (rank_lt_of_node? (node?_of_typeNode? h))

theorem rank_lt_of_nameNode? {s : Store} {name : NameId} {n : NameNode}
    (h : s.nameNode? name = some n) : ∀ r ∈ (Node.name n).ranks, r < name.slot.rank :=
  fun _ hr => Nat.lt_of_le_of_lt (le_maxRank hr) (rank_lt_of_node? (node?_of_nameNode? h))

theorem rank_lt_of_signature? {s : Store} {signature : SignatureId} {f : Signature}
    (h : s.signature? signature = some f) :
    ∀ r ∈ (Node.signature f).ranks, r < signature.slot.rank :=
  fun _ hr => Nat.lt_of_le_of_lt (le_maxRank hr) (rank_lt_of_node? (node?_of_signature? h))

theorem rank_lt_of_mem_typeList {s : Store} {list : TypeListId} {t : QualType}
    (h : t ∈ s.typeList list) : t.rank < list.slot.rank := by
  unfold typeList at h
  split at h
  · rename_i types hn
    exact Nat.lt_of_le_of_lt (le_maxRank (by simp only [Node.ranks]; exact List.mem_map_of_mem h))
      (rank_lt_of_node? hn)
  · simp at h

theorem rank_lt_of_mem_nameList {s : Store} {list : NameListId} {n : NameId}
    (h : n ∈ s.nameList list) : n.slot.rank < list.slot.rank := by
  unfold nameList at h
  split at h
  · rename_i names hn
    exact Nat.lt_of_le_of_lt
      (le_maxRank (by simp only [Node.ranks]; exact List.mem_map_of_mem (f := (·.slot.rank)) h))
      (rank_lt_of_node? hn)
  · simp at h

theorem rank_lt_of_function {s : Store} {slot : Slot} {signature : SignatureId} {f : Signature}
    (h : s.typeNode? slot = some (.function signature)) (hf : s.signature? signature = some f) :
    optionalRank f.name < slot.rank ∧ f.result.rank < slot.rank ∧
      ∀ a ∈ f.arguments, a.rank < slot.rank := by
  have outer := s.rank_lt_of_typeNode? h signature.slot.rank (by simp [Node.ranks])
  have inner := s.rank_lt_of_signature? hf
  refine ⟨Nat.lt_trans (inner _ ?_) outer, Nat.lt_trans (inner _ ?_) outer,
    fun a ha => Nat.lt_trans (inner _ ?_) outer⟩
  · simp [Node.ranks]
  · simp [Node.ranks]
  · exact List.mem_cons_of_mem _ (List.mem_cons_of_mem _ (List.mem_map_of_mem ha))

theorem rank_lt_of_template {s : Store} {name : NameId} {identifier : Atom} {args : TypeListId}
    (h : s.nameNode? name = some (.template identifier args)) {t : QualType}
    (ht : t ∈ s.typeList args) : t.rank < name.slot.rank := by
  have outer := s.rank_lt_of_nameNode? h args.slot.rank (by simp [Node.ranks])
  exact Nat.lt_trans (rank_lt_of_mem_typeList ht) outer

theorem rank_lt_of_selector {s : Store} {name : NameId} {parts : NameListId} {hasArguments : Bool}
    (h : s.nameNode? name = some (.selector parts hasArguments)) {n : NameId}
    (hn : n ∈ s.nameList parts) : n.slot.rank < name.slot.rank := by
  have outer := s.rank_lt_of_nameNode? h parts.slot.rank (by simp [Node.ranks])
  exact Nat.lt_trans (rank_lt_of_mem_nameList hn) outer

/-! ### Growing -/

/-- Adds a node that is not in the store yet and whose parts are. -/
theorem atoms_known_push (s : Store) (n : Node) (fresh : n ∉ s.nodes)
    (known : n.atomRank ≤ s.texts.size) :
    ∀ i (h : i < (s.toInterner.push n fresh).nodes.size),
      (s.toInterner.push n fresh).nodes[i].atomRank ≤ s.texts.size := by
  intro i h
  simp only [Interner.push, Array.getElem_push]
  split
  · exact s.atoms_known i _
  · exact known

theorem parts_older_push (s : Store) (n : Node) (fresh : n ∉ s.nodes)
    (older : n.rank ≤ s.nodes.size) :
    ∀ i (h : i < (s.toInterner.push n fresh).nodes.size),
      (s.toInterner.push n fresh).nodes[i].rank ≤ i := by
  intro i h
  simp only [Interner.push, Array.getElem_push]
  split
  · exact s.parts_older i _
  · simp only [Interner.push, Array.size_push] at h
    have last : i = s.nodes.size := by omega
    exact last ▸ older

def push (s : Store) (n : Node) (fresh : n ∉ s.nodes)
    (fits : n.atomRank ≤ s.texts.size ∧ n.rank ≤ s.nodes.size) : Store where
  toInterner := s.toInterner.push n fresh
  atoms_known := s.atoms_known_push n fresh fits.1
  parts_older := s.parts_older_push n fresh fits.2

/-- The slot of a node, as the interner gives it out. A node that mentions an entry or a text that
is not there yet would be out of order: no store has it, and the answer is a foreign slot. -/
def internNode (s : Store) (n : Node) : Slot × Store :=
  match h : s.nodes.idxOf? n with
  | some index => (.entry index, s)
  | none =>
    if fits : n.atomRank ≤ s.texts.size ∧ n.rank ≤ s.nodes.size then
      (.entry s.nodes.size, s.push n (by simpa using h) fits)
    else (.foreign 0, s)

theorem size_intern_le (t : TextTable) (text : String) : t.size ≤ (t.intern text).2.size := by
  unfold TextTable.intern
  split
  · exact Nat.le_refl _
  · simp [TextTable.push, TextTable.size]

def internText (text : String) : Storing Atom := fun s =>
  ((s.texts.intern text).1,
    { s with
      texts := (s.texts.intern text).2
      atoms_known := fun i h =>
        Nat.le_trans (s.atoms_known i h) (size_intern_le s.texts text) })

def internType (node : TypeNode) : Storing TypeId := fun s =>
  let (slot, s) := s.internNode (.type node)
  (.stored slot, s)

def internName (node : NameNode) : Storing NameId := fun s =>
  let (slot, s) := s.internNode (.name node)
  (⟨slot⟩, s)

def internTypeList (types : List QualType) : Storing TypeListId := fun s =>
  let (slot, s) := s.internNode (.typeList types)
  (⟨slot⟩, s)

def internNameList (names : List NameId) : Storing NameListId := fun s =>
  let (slot, s) := s.internNode (.nameList names)
  (⟨slot⟩, s)

def internSignature (signature : Signature) : Storing SignatureId := fun s =>
  let (slot, s) := s.internNode (.signature signature)
  (⟨slot⟩, s)

/-! ### Typical nodes -/

def namedType (name : NameId) : Storing TypeId := internType (.named name)

def functionType (signature : Signature) : Storing TypeId := do
  let signature ← internSignature signature
  internType (.function signature)

def identifierName (text : String) : Storing NameId := do
  let atom ← internText text
  internName (.identifier atom)

def templateName (identifier : Atom) (args : List QualType) : Storing NameId := do
  let args ← internTypeList args
  internName (.template identifier args)

def selectorName (parts : List NameId) (hasArguments : Bool) : Storing NameId := do
  let parts ← internNameList parts
  internName (.selector parts hasArguments)

/-! ### What interning keeps -/

/-- A later store still has every text and node of an earlier one. -/
structure Extends (s t : Store) : Prop extends Interner.Extends s.toInterner t.toInterner

theorem Extends.refl (s : Store) : Extends s s := ⟨fun h => h, fun h => h⟩

theorem Extends.trans {r s t : Store} (hrs : Extends r s) (hst : Extends s t) : Extends r t :=
  ⟨hrs.toExtends.trans hst.toExtends⟩

theorem extends_internNode (s : Store) (n : Node) : Extends s (s.internNode n).2 := by
  unfold internNode
  split
  · exact .refl s
  · rename_i absent
    split
    · exact ⟨fun h => h, Interner.node?_push (by simpa using absent)⟩
    · exact .refl s

theorem extends_internText (text : String) (s : Store) : Extends s (internText text s).2 :=
  ⟨fun h => TextTable.text?_intern_of_text? text h, fun h => h⟩

theorem extends_internType (n : TypeNode) (s : Store) : Extends s (internType n s).2 :=
  extends_internNode s (.type n)

theorem extends_internName (n : NameNode) (s : Store) : Extends s (internName n s).2 :=
  extends_internNode s (.name n)

theorem extends_internTypeList (types : List QualType) (s : Store) :
    Extends s (internTypeList types s).2 :=
  extends_internNode s (.typeList types)

end Store
end Respell

import Respell.Node

/-!
Interners: tables of texts and nodes that keep each one once, in the order of arrival. A node is
kept whatever it mentions: what it mentions may have come before, come later or never come. Main
statements: the slot that is given out stands for the node (`node?_internNode`), and a node that is
there is found where it is (`idxOf?_of_node?`).
-/
namespace Respell

structure Interner where
  texts : TextTable
  nodes : Array Node
  /-- No node is kept twice. -/
  nodup : nodes.toList.Nodup

namespace Interner

def ofTexts (texts : TextTable) : Interner where
  texts := texts
  nodes := #[]
  nodup := by simp

def initial : Interner := ofTexts .common

instance : Inhabited Interner := ⟨initial⟩

/-! ### Reading -/

def node? (i : Interner) : Slot → Option Node
  | .entry index => i.nodes[index]?
  | .foreign _ => none

def typeNode? (i : Interner) (slot : Slot) : Option TypeNode :=
  match i.node? slot with
  | some (.type node) => some node
  | _ => none

def nameNode? (i : Interner) (name : NameId) : Option NameNode :=
  match i.node? name.slot with
  | some (.name node) => some node
  | _ => none

/-- The template arguments of a list handle; a handle from elsewhere reads as the empty list. -/
def typeList (i : Interner) (list : TypeListId) : List QualType :=
  match i.node? list.slot with
  | some (.typeList types) => types
  | _ => []

/-- The selector parts of a list handle; a handle from elsewhere reads as the empty list. -/
def nameList (i : Interner) (list : NameListId) : List NameId :=
  match i.node? list.slot with
  | some (.nameList names) => names
  | _ => []

def signature? (i : Interner) (signature : SignatureId) : Option Signature :=
  match i.node? signature.slot with
  | some (.signature signature) => some signature
  | _ => none

def text (i : Interner) (a : Atom) : String := i.texts.text a

def typeCount (i : Interner) : Nat := TypeId.intrinsicCount + i.nodes.countP Node.isType

def nameCount (i : Interner) : Nat := i.nodes.countP Node.isName

def textCount (i : Interner) : Nat := i.texts.size

def isEmpty (i : Interner) : Bool := i.typeCount ≤ TypeId.intrinsicCount

/-! ### Growing -/

def push (i : Interner) (n : Node) (fresh : n ∉ i.nodes) : Interner where
  texts := i.texts
  nodes := i.nodes.push n
  nodup := by
    rw [Array.toList_push]
    refine List.nodup_append.mpr ⟨i.nodup, by simp, ?_⟩
    intro a ha b hb
    rw [List.mem_singleton] at hb
    rintro rfl
    exact fresh (hb ▸ Array.mem_toList_iff.mp ha)

/-- The slot of a node, which is added at the end when it is new. -/
def internNode (i : Interner) (n : Node) : Slot × Interner :=
  match h : i.nodes.idxOf? n with
  | some index => (.entry index, i)
  | none => (.entry i.nodes.size, i.push n (by simpa using h))

def internText (i : Interner) (text : String) : Atom × Interner :=
  ((i.texts.intern text).1, { i with texts := (i.texts.intern text).2 })

/-- A later interner still has every text and node of an earlier one. -/
structure Extends (i j : Interner) : Prop where
  texts : ∀ {a : Atom} {text : String}, i.texts.text? a = some text → j.texts.text? a = some text
  nodes : ∀ {slot : Slot} {n : Node}, i.node? slot = some n → j.node? slot = some n

theorem Extends.refl (i : Interner) : Extends i i := ⟨fun h => h, fun h => h⟩

theorem Extends.trans {i j k : Interner} (hij : Extends i j) (hjk : Extends j k) : Extends i k :=
  ⟨fun h => hjk.texts (hij.texts h), fun h => hjk.nodes (hij.nodes h)⟩

variable {i : Interner} {n : Node}

theorem node?_push (fresh : n ∉ i.nodes) {slot : Slot} {old : Node} (h : i.node? slot = some old) :
    (i.push n fresh).node? slot = some old := by
  cases slot with
  | foreign => simp [node?] at h
  | entry index =>
    simp only [node?] at h
    simp only [node?, push]
    rw [Array.getElem?_push_lt (Array.getElem?_eq_some_iff.mp h).1, ← Array.getElem?_eq_getElem, h]

theorem internNode_of_idxOf? {index : Nat} (found : i.nodes.idxOf? n = some index) :
    i.internNode n = (.entry index, i) := by
  unfold internNode
  split <;> rename_i other <;> cases found.symm.trans other
  rfl

theorem internNode_of_fresh (fresh : n ∉ i.nodes) :
    i.internNode n = (.entry i.nodes.size, i.push n fresh) := by
  unfold internNode
  split <;> rename_i other
  · simp [Array.idxOf?_eq_none_iff.mpr fresh] at other
  · rfl

theorem extends_internNode (i : Interner) (n : Node) : Extends i (i.internNode n).2 := by
  unfold internNode
  split
  · exact .refl i
  · rename_i absent
    exact ⟨fun h => h, node?_push (by simpa using absent)⟩

theorem extends_internText (text : String) (i : Interner) : Extends i (i.internText text).2 :=
  ⟨fun h => TextTable.text?_intern_of_text? text h, fun h => h⟩

theorem node?_internNode (i : Interner) (n : Node) :
    (i.internNode n).2.node? (i.internNode n).1 = some n := by
  unfold internNode
  split
  · rename_i j hj
    rw [Array.idxOf?_eq_map_finIdxOf?_val, Option.map_eq_some_iff] at hj
    obtain ⟨k, hk, rfl⟩ := hj
    rw [Array.finIdxOf?_eq_some_iff] at hk
    simpa [node?] using hk.1
  · simp [node?, push]

theorem idxOf?_of_node? {index : Nat} (h : i.node? (.entry index) = some n) :
    i.nodes.idxOf? n = some index := by
  cases found : i.nodes.idxOf? n with
  | none => exact absurd (Array.mem_of_getElem? h) (Array.idxOf?_eq_none_iff.mp found)
  | some j =>
    rw [Array.idxOf?_eq_map_finIdxOf?_val, Option.map_eq_some_iff] at found
    obtain ⟨k, hk, rfl⟩ := found
    have same : i.nodes[k.val]? = i.nodes[index]? := by
      rw [Array.finIdxOf?_eq_some_iff] at hk
      rw [Array.getElem?_eq_getElem k.isLt]
      exact (congrArg some hk.1).trans h.symm
    simp only [← Array.getElem?_toList] at same
    rw [(List.getElem?_inj k.isLt i.nodup).mp same]

end Interner
end Respell

import Respell.Store

/-! What one interning step gives out, and what a store still says after it has grown. A store
covers a handle when later entries cannot give it a new meaning: it is an entry already, or one that
no store gives out. Main statements: a node that is there is found (`internNode_of_node?`), a node
that is new is there afterwards (`node?_internNode`), and growth changes nothing that a covered
handle reads as (`node?_extend`, `text?_extend`). -/
namespace Respell.Store

open Interner (node? typeNode? nameNode? typeList nameList signature?)

variable {s t : Store}

/-- Handles of this rank are entries of the store, or none that a store gives out. -/
def Covers (s : Store) (rank : Nat) : Prop := rank ≤ s.nodes.size

/-- The atom is one of the store's, or none that a store gives out. -/
def CoversAtom (s : Store) (a : Atom) : Prop := a.slot.rank ≤ s.texts.size

/-- The store covers every atom and every handle that a node mentions. -/
def Fits (s : Store) (n : Node) : Prop := n.atomRank ≤ s.texts.size ∧ s.Covers n.rank

theorem Covers.mono {r r' : Nat} (h : s.Covers r) (le : r' ≤ r) : s.Covers r' :=
  Nat.le_trans le h

theorem covers_of_node? {slot : Slot} {n : Node} (h : s.node? slot = some n) :
    s.Covers slot.rank := by
  cases slot with
  | foreign => simp [node?] at h
  | entry i => exact (Array.getElem?_eq_some_iff.mp h).1

theorem fits_of_node? {slot : Slot} {n : Node} (h : s.node? slot = some n) : s.Fits n := by
  constructor
  · cases slot with
    | foreign => simp [node?] at h
    | entry i =>
      obtain ⟨hi, rfl⟩ := Array.getElem?_eq_some_iff.mp h
      exact s.atoms_known i hi
  · exact (covers_of_node? h).mono (Nat.le_of_lt (rank_lt_of_node? h))

theorem Fits.covers {n : Node} (h : s.Fits n) {r : Nat} (hr : r ∈ n.ranks) : s.Covers r :=
  h.2.mono (le_maxRank hr)

theorem Fits.coversAtom {n : Node} (h : s.Fits n) {a : Atom} (ha : a ∈ n.atoms) :
    s.CoversAtom a :=
  Nat.le_trans (le_maxRank (List.mem_map_of_mem (f := (·.slot.rank)) ha)) h.1

theorem fits_of_forall {n : Node} (atoms : ∀ a ∈ n.atoms, s.CoversAtom a)
    (parts : ∀ r ∈ n.ranks, s.Covers r) : s.Fits n := by
  constructor
  · apply maxRank_le.mpr
    intro r hr
    obtain ⟨a, ha, rfl⟩ := List.mem_map.mp hr
    exact atoms a ha
  · exact maxRank_le.mpr parts

/-- A type mentions no texts. -/
theorem fits_type {n : TypeNode} (parts : ∀ r ∈ (Node.type n).ranks, s.Covers r) :
    s.Fits (.type n) :=
  fits_of_forall (by simp [Node.atoms]) parts

theorem coversAtom_of_text? {a : Atom} {text : String} (h : s.texts.text? a = some text) :
    s.CoversAtom a := by
  obtain ⟨_ | _⟩ := a
  · exact (Array.getElem?_eq_some_iff.mp h).1
  · simp [TextTable.text?] at h

theorem text_of_text? {a : Atom} {text : String} (h : s.texts.text? a = some text) :
    s.text a = text := by
  simp [Interner.text, TextTable.text, h]

/-! ### Growth -/

section Growth

variable {i : Interner}

theorem size_le_of_extends (e : s.toInterner.Extends i) : s.nodes.size ≤ i.nodes.size := by
  cases h : s.nodes.size with
  | zero => exact Nat.zero_le _
  | succ k =>
    have last : s.node? (.entry k) = some s.nodes[k] := Array.getElem?_eq_getElem (by omega)
    exact (Array.getElem?_eq_some_iff.mp (e.nodes last)).1

theorem size_texts_le_of_extends (e : s.toInterner.Extends i) : s.texts.size ≤ i.texts.size := by
  cases h : s.texts.size with
  | zero => exact Nat.zero_le _
  | succ k =>
    have bound : k < s.texts.texts.size := by simp only [TextTable.size] at h; omega
    have last : s.texts.text? ⟨.entry k⟩ = some s.texts.texts[k] := Array.getElem?_eq_getElem bound
    exact (Array.getElem?_eq_some_iff.mp (e.texts last)).1

theorem node?_of_extends (e : s.toInterner.Extends i) {slot : Slot} (h : s.Covers slot.rank) :
    i.node? slot = s.node? slot := by
  cases slot with
  | foreign => rfl
  | entry k =>
    have old : s.node? (.entry k) = some s.nodes[k] := Array.getElem?_eq_getElem h
    rw [old, e.nodes old]

theorem text_of_extends (e : s.toInterner.Extends i) {a : Atom} (h : s.CoversAtom a) :
    i.text a = s.text a := by
  obtain ⟨k | _⟩ := a
  · have old : s.texts.text? ⟨.entry k⟩ = some s.texts.texts[k] := Array.getElem?_eq_getElem h
    simp only [Interner.text, TextTable.text, old, e.texts old]
  · rfl

end Growth

theorem Extends.size_le (e : s.Extends t) : s.nodes.size ≤ t.nodes.size :=
  size_le_of_extends e.toExtends

theorem Extends.size_texts_le (e : s.Extends t) : s.texts.size ≤ t.texts.size :=
  size_texts_le_of_extends e.toExtends

theorem Covers.extend {r : Nat} (h : s.Covers r) (e : s.Extends t) : t.Covers r :=
  Nat.le_trans h e.size_le

theorem CoversAtom.extend {a : Atom} (h : s.CoversAtom a) (e : s.Extends t) : t.CoversAtom a :=
  Nat.le_trans h e.size_texts_le

theorem Fits.extend {n : Node} (h : s.Fits n) (e : s.Extends t) : t.Fits n :=
  ⟨Nat.le_trans h.1 e.size_texts_le, h.2.extend e⟩

theorem node?_extend (e : s.Extends t) {slot : Slot} (h : s.Covers slot.rank) :
    t.node? slot = s.node? slot :=
  node?_of_extends e.toExtends h

theorem typeNode?_extend (e : s.Extends t) {slot : Slot} (h : s.Covers slot.rank) :
    t.typeNode? slot = s.typeNode? slot := by
  simp only [typeNode?, node?_extend e h]

theorem nameNode?_extend (e : s.Extends t) {n : NameId} (h : s.Covers n.slot.rank) :
    t.nameNode? n = s.nameNode? n := by
  simp only [nameNode?, node?_extend e h]

theorem signature?_extend (e : s.Extends t) {f : SignatureId} (h : s.Covers f.slot.rank) :
    t.signature? f = s.signature? f := by
  simp only [signature?, node?_extend e h]

theorem typeList_extend (e : s.Extends t) {l : TypeListId} (h : s.Covers l.slot.rank) :
    t.typeList l = s.typeList l := by
  simp only [typeList, node?_extend e h]

theorem nameList_extend (e : s.Extends t) {l : NameListId} (h : s.Covers l.slot.rank) :
    t.nameList l = s.nameList l := by
  simp only [nameList, node?_extend e h]

theorem text_extend (e : s.Extends t) {a : Atom} (h : s.CoversAtom a) :
    t.text a = s.text a :=
  text_of_extends e.toExtends h

theorem text?_extend (e : s.Extends t) {a : Atom} (h : s.CoversAtom a) :
    t.texts.text? a = s.texts.text? a := by
  obtain ⟨i | _⟩ := a
  · have old : s.texts.text? ⟨.entry i⟩ = some s.texts.texts[i] := Array.getElem?_eq_getElem h
    rw [old, e.texts old]
  · rfl

/-! ### Single steps -/

theorem pure_eq {σ α : Type} (a : α) (x : σ) : (pure a : StateM σ α) x = (a, x) := rfl

theorem bind_eq {σ α β : Type} {act : StateM σ α} {next : α → StateM σ β} {a : α} {x y : σ}
    (h : act x = (a, y)) : (act >>= next) x = next a y := by
  simp only [bind, StateT.bind, h]

theorem typeNode?_of_node? {slot : Slot} {n : TypeNode} (h : s.node? slot = some (.type n)) :
    s.typeNode? slot = some n := by
  simp [typeNode?, h]

theorem nameNode?_of_node? {name : NameId} {n : NameNode} (h : s.node? name.slot = some (.name n)) :
    s.nameNode? name = some n := by
  simp [nameNode?, h]

theorem covers_of_typeNode? {slot : Slot} {n : TypeNode} (h : s.typeNode? slot = some n) {r : Nat}
    (hr : r ∈ (Node.type n).ranks) : s.Covers r :=
  (fits_of_node? (node?_of_typeNode? h)).covers hr

theorem covers_of_nameNode? {name : NameId} {n : NameNode} (h : s.nameNode? name = some n) {r : Nat}
    (hr : r ∈ (Node.name n).ranks) : s.Covers r :=
  (fits_of_node? (node?_of_nameNode? h)).covers hr

theorem covers_of_signature? {signature : SignatureId} {f : Signature}
    (h : s.signature? signature = some f) {r : Nat} (hr : r ∈ (Node.signature f).ranks) :
    s.Covers r :=
  (fits_of_node? (node?_of_signature? h)).covers hr

theorem internNode_of_node? {slot : Slot} {n : Node} (h : s.node? slot = some n) :
    s.internNode n = (slot, s) := by
  cases slot with
  | foreign => simp [node?] at h
  | entry index =>
    unfold internNode
    split <;> rename_i found <;> cases found.symm.trans (Interner.idxOf?_of_node? h)
    rfl

/-- A node that fits is interned as by any interner. -/
theorem internNode_of_fits {n : Node} (h : s.Fits n) :
    (s.internNode n).1 = (s.toInterner.internNode n).1 ∧
      (s.internNode n).2.toInterner = (s.toInterner.internNode n).2 := by
  have fits : n.atomRank ≤ s.texts.size ∧ n.rank ≤ s.nodes.size := h
  unfold internNode
  split <;> rename_i found
  · rw [Interner.internNode_of_idxOf? found]
    exact ⟨rfl, rfl⟩
  · rw [Interner.internNode_of_fresh (by simpa using found), dif_pos fits]
    exact ⟨rfl, rfl⟩

theorem node?_internNode {n : Node} (h : s.Fits n) :
    (s.internNode n).2.node? (s.internNode n).1 = some n := by
  obtain ⟨slot, interner⟩ := internNode_of_fits h
  rw [slot, interner]
  exact s.toInterner.node?_internNode n

theorem node?_internType {n : TypeNode} (h : s.Fits (.type n)) :
    ∃ slot, (internType n s).1 = .stored slot ∧ (internType n s).2.node? slot = some (.type n) :=
  ⟨_, rfl, node?_internNode h⟩

theorem nameNode?_internName {n : NameNode} (h : s.Fits (.name n)) :
    (internName n s).2.nameNode? (internName n s).1 = some n :=
  nameNode?_of_node? (node?_internNode h)

theorem node?_internTypeList {types : List QualType} (h : s.Fits (.typeList types)) :
    (internTypeList types s).2.node? (internTypeList types s).1.slot = some (.typeList types) :=
  node?_internNode h

theorem internText_of_text? {a : Atom} {text : String} (h : s.texts.text? a = some text) :
    internText text s = (a, s) := by
  simp only [internText, TextTable.intern_of_text? h]

theorem text?_internText (text : String) (s : Store) :
    (internText text s).2.texts.text? (internText text s).1 = some text :=
  s.texts.text?_intern text

end Respell.Store

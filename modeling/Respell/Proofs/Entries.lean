import Mathlib.Data.Finset.Card
import Respell.Proofs.Shapes

/-! What interning adds to a store, told by trees. A store holds the types and names that its
grounded handles stand for, and its texts; an entry is one of these. Adding a set of entries to a
store puts those into it that it does not hold yet, and nothing else. Main statements: additions
compose to the union (`Adds.trans`), so their order does not show in the counts, and interning a
node adds the entry that its handle denotes (`adds_internType`, `adds_internName`), a list or a text
likewise. -/
namespace Respell

/-! ### Handles of an earlier store -/

namespace Store

variable {s t : Store}

theorem text?_of_extends (e : s.Extends t) {a : Atom} (covers : s.CoversAtom a) {text : String}
    (h : t.texts.text? a = some text) : s.texts.text? a = some text :=
  (text?_extend e covers).symm.trans h

theorem knowsTypeList_of_extends (e : s.Extends t) {list : TypeListId}
    (covers : s.Covers list.slot.rank) (h : t.KnowsTypeList list) : s.KnowsTypeList list := by
  obtain ⟨types, h⟩ := h
  exact ⟨types, (node?_extend e covers).symm.trans h⟩

theorem knowsNameList_of_extends (e : s.Extends t) {list : NameListId}
    (covers : s.Covers list.slot.rank) (h : t.KnowsNameList list) : s.KnowsNameList list := by
  obtain ⟨names, h⟩ := h
  exact ⟨names, (node?_extend e covers).symm.trans h⟩

/-- What a later store gave out of a settled part, the store gave out itself. -/
theorem grounded_of_extends (e : s.Extends t) (p : Part) (h : p.Handle) (settled : s.Settled p h)
    (grounded : (s.unfold p h).Grounded t) : (s.unfold p h).Grounded s := by
  induction p, h using s.part_induction with
  | undefined | void | reserved | noName | noTypes | noNames | noArguments =>
    simp [Unfolding.Grounded]
  | unknown slot node =>
    rw [unfold_of_typeNode?_eq_none node]
    trivial
  | unknownName n node =>
    rw [unfold_of_nameNode?_eq_none node]
    trivial
  | integer slot kind node | float slot kind node | declared slot shape symbol node =>
    rw [unfold_of_typeNode? node]
    trivial
  | shapeless slot signature node shape =>
    rw [unfold_of_typeNode? node]
    simp [unfoldNode, shape, Unfolding.Grounded]
  | pointer slot element node ih | reference slot element node ih | array slot element size node ih
  | named slot name node ih =>
    rw [unfold_of_typeNode? node] at grounded ⊢
    exact ih (covers_of_typeNode? node (by simp [Node.ranks])) grounded
  | memberPointer slot owner element node ihOwner ihElement =>
    rw [unfold_of_typeNode? node] at grounded ⊢
    exact ⟨ihOwner (covers_of_typeNode? node (by simp [Node.ranks])) grounded.1,
      ihElement (covers_of_typeNode? node (by simp [Node.ranks])) grounded.2⟩
  | function slot signature node f shape ihName ihResult ihArguments =>
    rw [unfold_of_typeNode? node] at grounded ⊢
    simp only [unfoldNode, shape] at grounded ⊢
    exact ⟨ihName (covers_of_signature? shape (by simp [Node.ranks])) grounded.1,
      ihResult (covers_of_signature? shape (by simp [Node.ranks])) grounded.2.1,
      ihArguments (settled_arguments shape) grounded.2.2⟩
  | qual t ih =>
    rw [unfold_qual] at grounded ⊢
    exact ih settled grounded
  | identifier atom n node | destructor atom n node =>
    rw [unfold_of_nameNode? node] at grounded ⊢
    have fits := fits_of_node? (node?_of_nameNode? node)
    exact text?_of_extends e (fits.coversAtom (a := atom) (by simp [Node.atoms])) grounded
  | qualified base member n node ihBase ihMember =>
    rw [unfold_of_nameNode? node] at grounded ⊢
    exact ⟨ihBase (covers_of_nameNode? node (by simp [Node.ranks])) grounded.1,
      ihMember (covers_of_nameNode? node (by simp [Node.ranks])) grounded.2⟩
  | template atom args n node ih =>
    rw [unfold_of_nameNode? node] at grounded ⊢
    obtain ⟨known, list, inner⟩ := grounded
    have fits := fits_of_node? (node?_of_nameNode? node)
    have covers : s.Covers args.slot.rank := fits.covers (by simp [Node.ranks])
    exact ⟨text?_of_extends e (fits.coversAtom (a := atom) (by simp [Node.atoms])) known,
      knowsTypeList_of_extends e covers list, ih (settled_typeList covers) inner⟩
  | operator kind n node =>
    rw [unfold_of_nameNode? node]
    trivial
  | conversion target n node ih =>
    rw [unfold_of_nameNode? node] at grounded ⊢
    exact ih (covers_of_nameNode? node (by simp [Node.ranks])) grounded
  | selector parts hasArguments n node ih =>
    rw [unfold_of_nameNode? node] at grounded ⊢
    have covers : s.Covers parts.slot.rank := covers_of_nameNode? node (by simp [Node.ranks])
    exact ⟨knowsNameList_of_extends e covers grounded.1, ih (settled_nameList covers) grounded.2⟩
  | justName n ih =>
    rw [unfold_justName] at grounded ⊢
    exact ih settled grounded
  | consType first rest ihFirst ihRest =>
    rw [unfold_consType] at grounded ⊢
    exact ⟨ihFirst (settled first (by simp)) grounded.1,
      ihRest (fun q hq => settled q (by simp [hq])) grounded.2⟩
  | consName first rest ihFirst ihRest =>
    rw [unfold_consName] at grounded ⊢
    exact ⟨ihFirst (settled first (by simp)) grounded.1,
      ihRest (fun n hn => settled n (by simp [hn])) grounded.2⟩
  | consArgument a rest ihName ihType ihRest =>
    rw [unfold_consArgument] at grounded ⊢
    obtain ⟨covers, atoms⟩ := settled a (by simp)
    obtain ⟨name, type, texts, others⟩ := grounded
    refine ⟨ihName (covers.mono (Nat.le_max_left ..)) name,
      ihType (covers.mono (Nat.le_max_right ..)) type, fun d hd => ?_,
      ihRest (fun b hb => settled b (by simp [hb])) others⟩
    obtain ⟨atom, there, rfl⟩ := Option.map_eq_some_iff.mp hd
    exact text?_of_extends e (atoms atom there) (texts _ hd)

theorem Denotes.earlier (e : s.Extends t) {p : Part} {tree : Tree p} {h : p.Handle}
    (settled : s.Settled p h) (d : t.Denotes True tree h) : s.Denotes True tree h := by
  refine ⟨settled, (partTree_extend e settled).symm.trans d.reads, fun _ => ?_⟩
  have grounded := d.grounded trivial
  rw [unfold_extend e p h settled] at grounded
  exact grounded_of_extends e p h settled grounded

end Store

/-! ### Entries -/

/-- What a store keeps only once. -/
inductive Entry
  | type (tree : Tree .type)
  | name (tree : Tree .name)
  | text (text : String)
  deriving DecidableEq

namespace Entry

inductive Kind
  | type | name | text
  deriving DecidableEq

def kind : Entry → Kind
  | type _ => .type
  | name _ => .name
  | text _ => .text

end Entry

namespace Store

def count (s : Store) : Entry.Kind → Nat
  | .type => s.typeCount
  | .name => s.nameCount
  | .text => s.textCount

/-- The handle of a node stands for the entry, and is grounded. -/
def Shows (s : Store) (slot : Slot) : Node → Entry → Prop
  | .type _, .type tree => s.Denotes True tree (TypeId.stored slot)
  | .name _, .name tree => s.Denotes True tree (⟨slot⟩ : NameId)
  | _, _ => False

/-- The store has a node that stands for the entry, or the text. -/
inductive Holds (s : Store) : Entry → Prop
  | node {slot : Slot} {n : Node} {entry : Entry} (there : s.node? slot = some n)
      (shown : s.Shows slot n entry) : Holds s entry
  | text {a : Atom} {text : String} (there : s.texts.text? a = some text) : Holds s (.text text)

variable {s t u : Store} {new more : Finset Entry} {entry : Entry} {slot slot' : Slot}
  {n n' : Node}

theorem Shows.extend (h : s.Shows slot n entry) (e : s.Extends t) : t.Shows slot n entry := by
  cases n <;> cases entry <;> first | exact h.elim | exact Denotes.extend h e

theorem Shows.earlier (e : s.Extends t) (there : s.node? slot = some n)
    (h : t.Shows slot n entry) : s.Shows slot n entry := by
  cases n <;> cases entry <;>
    first | exact h.elim | exact Denotes.earlier e (covers_of_node? there) h

/-- Two nodes never stand for one entry. -/
theorem Shows.unique (h : s.Shows slot n entry) (h' : s.Shows slot' n' entry) : slot = slot' := by
  cases n <;> cases n' <;> cases entry <;>
    first
    | exact h.elim
    | exact h'.elim
    | exact TypeId.stored.inj (Denotes.unique h h')
    | exact NameId.mk.inj (Denotes.unique h h')

/-- A node stands for one entry at most. -/
theorem Shows.entry_unique {entry' : Entry} (h : s.Shows slot n entry)
    (h' : s.Shows slot n entry') : entry = entry' := by
  cases n <;> cases entry <;> cases entry' <;>
    first
    | exact h.elim
    | exact h'.elim
    | exact congrArg Entry.type ((Denotes.reads h).symm.trans (Denotes.reads h'))
    | exact congrArg Entry.name ((Denotes.reads h).symm.trans (Denotes.reads h'))

theorem Shows.isType_or_isName (h : s.Shows slot n entry) : n.isType = true ∨ n.isName = true := by
  cases n <;> first | exact .inl rfl | exact .inr rfl | exact h.elim

theorem Holds.extend (h : s.Holds entry) (e : s.Extends t) : t.Holds entry := by
  cases h with
  | node there shown => exact .node (e.nodes there) (shown.extend e)
  | text there => exact .text (e.texts there)

open Classical in
/-- The later store holds what the earlier one does and the new entries, and it is larger by those
that are new to the earlier one. -/
structure Adds (s t : Store) (new : Finset Entry) : Prop where
  grows : s.Extends t
  holds : ∀ entry, t.Holds entry ↔ s.Holds entry ∨ entry ∈ new
  counts : ∀ kind, t.count kind = s.count kind +
    (new.filter fun entry => entry.kind = kind ∧ ¬ s.Holds entry).card

namespace Adds

theorem of_held (held : ∀ entry ∈ new, s.Holds entry) : Adds s s new where
  grows := .refl s
  holds entry := (or_iff_left_of_imp (held entry)).symm
  counts kind := by
    classical
    have none : (new.filter fun entry => entry.kind = kind ∧ ¬ s.Holds entry) = ∅ :=
      Finset.filter_eq_empty_iff.mpr fun entry mem both => both.2 (held entry mem)
    rw [none, Finset.card_empty, Nat.add_zero]

theorem refl (s : Store) : Adds s s ∅ := of_held fun _ mem => absurd mem (Finset.notMem_empty _)

/-- One addition after the other adds the union. -/
theorem trans (first : Adds s t new) (second : Adds t u more) : Adds s u (new ∪ more) where
  grows := first.grows.trans second.grows
  holds entry := by rw [second.holds, first.holds, Finset.mem_union, or_assoc]
  counts kind := by
    classical
    have parts : ((new ∪ more).filter fun entry => entry.kind = kind ∧ ¬ s.Holds entry) =
        (new.filter fun entry => entry.kind = kind ∧ ¬ s.Holds entry) ∪
          more.filter fun entry => entry.kind = kind ∧ ¬ t.Holds entry := by
      ext entry
      simp only [Finset.mem_filter, Finset.mem_union, first.holds]
      tauto
    have apart : Disjoint (new.filter fun entry => entry.kind = kind ∧ ¬ s.Holds entry)
        (more.filter fun entry => entry.kind = kind ∧ ¬ t.Holds entry) := by
      rw [Finset.disjoint_left]
      intro entry old later
      obtain ⟨mem, -⟩ := Finset.mem_filter.mp old
      obtain ⟨-, -, absent⟩ := Finset.mem_filter.mp later
      exact absent ((first.holds entry).mpr (.inr mem))
    rw [second.counts, first.counts, parts, Finset.card_union_of_disjoint apart, Nat.add_assoc]

theorem after_nothing (first : Adds s t ∅) (second : Adds t u more) : Adds s u more :=
  Finset.empty_union more ▸ first.trans second

/-- Additions of the same entries to a store leave equal counts. -/
theorem counts_eq (h : Adds s t new) (h' : Adds s u new) (kind : Entry.Kind) :
    t.count kind = u.count kind := by
  rw [h.counts, h'.counts]

end Adds

/-! ### Single steps -/

open Interner (node? typeCount nameCount textCount)

/-- A node is found, or added at the end, or refused. -/
theorem internNode_cases (s : Store) (n : Node) :
    (∃ slot, s.node? slot = some n ∧ s.internNode n = (slot, s)) ∨
      (∃ t : Store, s.internNode n = (.entry s.nodes.size, t) ∧ t.texts = s.texts ∧
        t.nodes = s.nodes.push n) ∨
      s.internNode n = (.foreign 0, s) := by
  unfold internNode
  split
  · rename_i index found
    refine .inl ⟨.entry index, ?_, rfl⟩
    rw [Array.idxOf?_eq_map_finIdxOf?_val, Option.map_eq_some_iff] at found
    obtain ⟨k, hk, rfl⟩ := found
    rw [Array.finIdxOf?_eq_some_iff] at hk
    simpa [node?] using hk.1
  · split
    · exact .inr (.inl ⟨_, rfl, rfl, rfl⟩)
    · exact .inr (.inr rfl)

/-- A node that is not refused is there afterwards. -/
theorem node?_internNode_of_ne (taken : (s.internNode n).1 ≠ .foreign 0) :
    (s.internNode n).2.node? (s.internNode n).1 = some n := by
  rcases internNode_cases s n with ⟨slot, old, run⟩ | ⟨t, run, -, nodes⟩ | run
  · rw [run]
    exact old
  · rw [run]
    simp [node?, nodes]
  · rw [run] at taken
    contradiction

section Push

variable (texts : t.texts = s.texts) (nodes : t.nodes = s.nodes.push n)

include nodes in
theorem node?_of_push (h : t.node? slot = some n') :
    s.node? slot = some n' ∨ slot = .entry s.nodes.size ∧ n' = n := by
  cases slot with
  | foreign => simp [node?] at h
  | entry i =>
    rw [node?, nodes, Array.getElem?_push] at h
    split at h
    · rename_i last
      exact .inr ⟨congrArg Slot.entry last, (Option.some.inj h).symm⟩
    · exact .inl h

include texts nodes

/-- What a store with one node more holds was held before, or is what the new node stands for. -/
theorem Holds.of_push (grows : s.Extends t) (h : t.Holds entry) :
    s.Holds entry ∨ t.Shows (.entry s.nodes.size) n entry := by
  cases h with
  | node there shown =>
    rcases node?_of_push nodes there with old | ⟨rfl, rfl⟩
    · exact .inl (.node old (shown.earlier grows old))
    · exact .inr shown
  | text there => exact .inl (.text (texts ▸ there))

theorem count_push (kind : Entry.Kind) : t.count kind = s.count kind +
    match kind with
    | .type => if n.isType then 1 else 0
    | .name => if n.isName then 1 else 0
    | .text => 0 := by
  cases kind with
  | type => simp only [count, typeCount, nodes, Array.countP_push, Nat.add_assoc]
  | name => simp only [count, nameCount, nodes, Array.countP_push]
  | text => simp only [count, textCount, texts, Nat.add_zero]

end Push

/-- A node that stands for an entry adds the entry. -/
theorem adds_internNode (there : (s.internNode n).2.node? (s.internNode n).1 = some n)
    (shown : (s.internNode n).2.Shows (s.internNode n).1 n entry) :
    Adds s (s.internNode n).2 {entry} := by
  have grows := extends_internNode s n
  rcases internNode_cases s n with ⟨slot, old, run⟩ | ⟨t, run, texts, nodes⟩ | run
  · rw [run] at shown ⊢
    refine .of_held fun other mem => ?_
    rw [Finset.mem_singleton.mp mem]
    exact .node old shown
  · rw [run] at there shown grows ⊢
    have absent : ¬ s.Holds entry := by
      intro held
      cases held with
      | text => cases n <;> exact shown
      | node old shown' =>
        have within := covers_of_node? old
        rw [(shown'.extend grows).unique shown] at within
        exact absurd within (Nat.not_succ_le_self _)
    refine ⟨grows, fun other => ⟨fun held => ?_, ?_⟩, fun kind => ?_⟩
    · refine (held.of_push texts nodes grows).imp_right fun shown' => ?_
      rw [shown'.entry_unique shown]
      exact Finset.mem_singleton_self _
    · rintro (held | mem)
      · exact held.extend grows
      · rw [Finset.mem_singleton.mp mem]
        exact .node there shown
    · rw [count_push texts nodes kind, Finset.filter_singleton]
      cases n <;> cases entry <;>
        first
        | exact shown.elim
        | cases kind <;> simp [Entry.kind, absent, Node.isType, Node.isName]
  · rw [run] at there
    cases there

/-- A list or a signature adds nothing. -/
theorem adds_internNode_list (notType : n.isType = false) (notName : n.isName = false) :
    Adds s (s.internNode n).2 ∅ := by
  have grows := extends_internNode s n
  rcases internNode_cases s n with ⟨slot, old, run⟩ | ⟨t, run, texts, nodes⟩ | run
  · rw [run]
    exact .refl s
  · rw [run] at grows ⊢
    refine ⟨grows, fun other => ⟨fun held => ?_, ?_⟩, fun kind => ?_⟩
    · refine (held.of_push texts nodes grows).imp_right fun shown => ?_
      rcases shown.isType_or_isName with type | name
      · cases notType.symm.trans type
      · cases notName.symm.trans name
    · rintro (held | mem)
      · exact held.extend grows
      · cases Finset.notMem_empty _ mem
    · rw [count_push texts nodes kind, Finset.filter_empty, Finset.card_empty, notType, notName]
      cases kind <;> rfl
  · rw [run]
    exact .refl s

/-- A text is found, or added at the end. -/
theorem internText_cases (text : String) (s : Store) :
    (∃ a, s.texts.text? a = some text ∧ internText text s = (a, s)) ∨
      text ∉ s.texts.texts ∧ (internText text s).2.texts.texts = s.texts.texts.push text := by
  by_cases there : text ∈ s.texts.texts
  · obtain ⟨i, hi, rfl⟩ := Array.mem_iff_getElem.mp there
    have known : s.texts.text? ⟨.entry i⟩ = some s.texts.texts[i] := Array.getElem?_eq_getElem hi
    exact .inl ⟨_, known, internText_of_text? known⟩
  · refine .inr ⟨there, ?_⟩
    have none : s.texts.texts.idxOf? text = none := Array.idxOf?_eq_none_iff.mpr there
    simp only [internText, TextTable.intern]
    split
    · rename_i index found
      rw [none] at found
      cases found
    · rfl

theorem adds_internText (text : String) (s : Store) :
    Adds s (internText text s).2 {.text text} := by
  have grows := extends_internText text s
  have known := text?_internText text s
  rcases internText_cases text s with ⟨a, old, run⟩ | ⟨fresh, pushed⟩
  · rw [run]
    exact .of_held fun other mem => Finset.mem_singleton.mp mem ▸ .text old
  · have absent : ¬ s.Holds (.text text) := by
      intro held
      cases held with
      | node _ shown => rename_i n _; cases n <;> exact shown
      | @text a _ old =>
        obtain ⟨i | _⟩ := a
        · exact fresh (Array.mem_of_getElem? old)
        · cases old
    refine ⟨grows, fun other => ⟨fun held => ?_, ?_⟩, fun kind => ?_⟩
    · cases held with
      | node there shown => exact .inl (.node there (shown.earlier grows there))
      | @text a x there =>
        obtain ⟨i | _⟩ := a
        · simp only [TextTable.text?, pushed, Array.getElem?_push] at there
          split at there
          · rw [← Option.some.inj there]
            exact .inr (Finset.mem_singleton_self _)
          · exact .inl (.text (a := ⟨.entry i⟩) there)
        · cases there
    · rintro (held | mem)
      · exact held.extend grows
      · rw [Finset.mem_singleton.mp mem]
        exact .text known
    · have larger : (internText text s).2.textCount = s.textCount + 1 := by
        rw [textCount, TextTable.size, pushed, Array.size_push]
        rfl
      have nodes : (internText text s).2.nodes = s.nodes := rfl
      rw [Finset.filter_singleton]
      cases kind with
      | type => simp [Entry.kind, count, typeCount, nodes]
      | name => simp [Entry.kind, count, nameCount, nodes]
      | text => simp [Entry.kind, absent, count, larger]

theorem adds_internType {n : TypeNode} {tree : Tree .type}
    (d : (internType n s).2.Denotes True tree (internType n s).1)
    (stands : ∀ type, tree ≠ .unknown type) : Adds s (internType n s).2 {.type tree} := by
  refine adds_internNode (node?_internNode_of_ne fun refused => ?_) d
  have handle : (internType n s).1 = .stored (.foreign 0) := congrArg TypeId.stored refused
  have reads := d.reads
  rw [handle, ← tree_unfold, unfold_of_typeNode?_eq_none rfl] at reads
  exact stands _ reads.symm

theorem adds_internName {n : NameNode} {tree : Tree .name}
    (d : (internName n s).2.Denotes True tree (internName n s).1)
    (stands : ∀ name, tree ≠ .unknownName name) : Adds s (internName n s).2 {.name tree} := by
  refine adds_internNode (node?_internNode_of_ne fun refused => ?_) d
  have handle : (internName n s).1 = ⟨.foreign 0⟩ := congrArg NameId.mk refused
  have reads := d.reads
  rw [handle, ← tree_unfold, unfold_of_nameNode?_eq_none rfl] at reads
  exact stands _ reads.symm

theorem adds_functionType {f : Signature} {tree : Tree .type}
    (d : (functionType f s).2.Denotes True tree (functionType f s).1)
    (stands : ∀ type, tree ≠ .unknown type) : Adds s (functionType f s).2 {.type tree} := by
  have shape : Adds s (internSignature f s).2 ∅ := adds_internNode_list rfl rfl
  exact shape.after_nothing (adds_internType d stands)

theorem adds_templateName {atom : Atom} {args : List QualType} {tree : Tree .name}
    (d : (templateName atom args s).2.Denotes True tree (templateName atom args s).1)
    (stands : ∀ name, tree ≠ .unknownName name) :
    Adds s (templateName atom args s).2 {.name tree} := by
  have list : Adds s (internTypeList args s).2 ∅ := adds_internNode_list rfl rfl
  exact list.after_nothing (adds_internName d stands)

theorem adds_selectorName {parts : List NameId} {hasArguments : Bool} {tree : Tree .name}
    (d : (selectorName parts hasArguments s).2.Denotes True tree
      (selectorName parts hasArguments s).1)
    (stands : ∀ name, tree ≠ .unknownName name) :
    Adds s (selectorName parts hasArguments s).2 {.name tree} := by
  have list : Adds s (internNameList parts s).2 ∅ := adds_internNode_list rfl rfl
  exact list.after_nothing (adds_internName d stands)

end Store
end Respell

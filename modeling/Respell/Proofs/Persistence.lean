import Mathlib.Data.Finset.Card
import Mathlib.Data.List.Dedup
import Respell.Proofs.History
import Respell.Proofs.Injectivity

/-! What an interner holds and says after any run of requests. A run adds exactly what was asked for
(`mem_nodes_serveAll`, `mem_texts_serveAll`), in whatever order. In an orderly run a request
mentions only what was given out before, or what is never given out; then the interner is a store's
(`serveAll_of_orderly`), and what it gave out reads the same ever after (`reading_of_extends`). Main
statement: after any run equal handles are equal trees, and the counts are the numbers of different
requests (`serveAll_canonical`). -/
namespace Respell

inductive Reading
  | text (text : String)
  | tree (p : Part) (tree : Tree p)
  | function (name : Tree .optionalName) (result : Tree .qualified) (arguments : Tree .arguments)
      (attributes : FunctionAttributes)
  | nothing

namespace Interner

variable {i j : Interner} {s : Store}

def serve (i : Interner) : Request → Given × Interner
  | .text x =>
    let (a, i) := i.internText x
    (.atom a, i)
  | .type n =>
    let (slot, i) := i.internNode (.type n)
    (.type (.stored slot), i)
  | .name n =>
    let (slot, i) := i.internNode (.name n)
    (.name ⟨slot⟩, i)
  | .typeList types =>
    let (slot, i) := i.internNode (.typeList types)
    (.typeList ⟨slot⟩, i)
  | .nameList names =>
    let (slot, i) := i.internNode (.nameList names)
    (.nameList ⟨slot⟩, i)
  | .signature f =>
    let (slot, i) := i.internNode (.signature f)
    (.signature ⟨slot⟩, i)

def serveAll (i : Interner) : List Request → List Given × Interner
  | [] => ([], i)
  | r :: rest =>
    let (given, i) := i.serve r
    let (others, i) := i.serveAll rest
    (given :: others, i)

/-- The atoms and handles that the request mentions were given out before, or no interner gives them
out. -/
def Fits (i : Interner) (r : Request) : Prop :=
  ∀ n ∈ r.node?, n.atomRank ≤ i.texts.size ∧ n.rank ≤ i.nodes.size

/-- Every request fits the interner that it comes to. -/
def Orderly (i : Interner) : List Request → Prop
  | [] => True
  | r :: rest => i.Fits r ∧ (i.serve r).2.Orderly rest

/-- What a handle stands for now, with everything that it leads to. -/
def reading (i : Interner) : Given → Reading
  | .atom a => .text (i.text a)
  | .type t => .tree .type (i.unfold .type t).tree
  | .name n => .tree .name (i.unfold .name n).tree
  | .typeList list => .tree .types (i.unfold .types (i.typeList list)).tree
  | .nameList list => .tree .names (i.unfold .names (i.nameList list)).tree
  | .signature signature =>
    match i.signature? signature with
    | none => .nothing
    | some f =>
      .function (i.unfold .optionalName f.name).tree (i.unfold .qualified f.result).tree
        (i.unfold .arguments f.arguments).tree f.attributes

theorem serveAll_cons (r : Request) (rest : List Request) (i : Interner) :
    i.serveAll (r :: rest) =
      ((i.serve r).1 :: ((i.serve r).2.serveAll rest).1, ((i.serve r).2.serveAll rest).2) := rfl

/-! ### Growth -/

theorem extends_serve (r : Request) (i : Interner) : i.Extends (i.serve r).2 := by
  cases r with
  | text x => exact extends_internText x i
  | type | name | typeList | nameList | signature => exact extends_internNode i _

theorem extends_serveAll (requests : List Request) (i : Interner) :
    i.Extends (i.serveAll requests).2 := by
  induction requests generalizing i with
  | nil => exact .refl i
  | cons r rest ih => exact (extends_serve r i).trans (ih _)

/-! ### What is given out -/

/-- The interner gave the handle out: it knows what the handle stands for. -/
def Knows (i : Interner) : Given → Prop
  | .atom a => ∃ x, i.texts.text? a = some x
  | .type t => ∃ slot n, t = .stored slot ∧ i.node? slot = some (.type n)
  | .name n => ∃ node, i.node? n.slot = some (.name node)
  | .typeList list => ∃ types, i.node? list.slot = some (.typeList types)
  | .nameList list => ∃ names, i.node? list.slot = some (.nameList names)
  | .signature shape => ∃ f, i.node? shape.slot = some (.signature f)

theorem Knows.extend {g : Given} (h : i.Knows g) (e : i.Extends j) : j.Knows g := by
  cases g with
  | atom a =>
    obtain ⟨x, h⟩ := h
    exact ⟨x, e.texts h⟩
  | type =>
    obtain ⟨slot, n, rfl, h⟩ := h
    exact ⟨slot, n, rfl, e.nodes h⟩
  | name | typeList | nameList | signature =>
    obtain ⟨n, h⟩ := h
    exact ⟨n, e.nodes h⟩

theorem knows_serve (i : Interner) (r : Request) : (i.serve r).2.Knows (i.serve r).1 := by
  cases r with
  | text x => exact ⟨x, i.texts.text?_intern x⟩
  | type n => exact ⟨_, n, rfl, node?_internNode i _⟩
  | name n => exact ⟨n, node?_internNode i _⟩
  | typeList types => exact ⟨types, node?_internNode i _⟩
  | nameList names => exact ⟨names, node?_internNode i _⟩
  | signature f => exact ⟨f, node?_internNode i _⟩

theorem knows_serveAll (requests : List Request) (i : Interner) :
    ∀ g ∈ (i.serveAll requests).1, (i.serveAll requests).2.Knows g := by
  induction requests generalizing i with
  | nil => simp [serveAll]
  | cons r rest ih =>
    intro g hg
    rw [serveAll_cons] at hg ⊢
    rcases List.mem_cons.mp hg with rfl | hg
    · exact (knows_serve i r).extend (extends_serveAll rest _)
    · exact ih _ g hg

theorem eq_none_iff_text {a : Atom} (known : i.Knows (.atom a)) : a = .none ↔ i.text a = "" := by
  obtain ⟨x, h⟩ := known
  have reads : i.text a = x := by simp [text, TextTable.text, h]
  rw [reads]
  constructor
  · rintro rfl
    exact Option.some.inj (h.symm.trans i.texts.first_empty)
  · rintro rfl
    exact TextTable.atom_eq_of_text? h i.texts.first_empty

/-! ### Orderly runs -/

theorem serve_of_fits {r : Request} (fits : s.toInterner.Fits r) :
    s.toInterner.serve r = ((r.serve s).1, (r.serve s).2.toInterner) := by
  have same {n : Node} (asked : r.node? = some n) :
      s.toInterner.internNode n = ((s.internNode n).1, (s.internNode n).2.toInterner) := by
    obtain ⟨slot, interner⟩ := Store.internNode_of_fits (fits n asked)
    rw [slot, interner]
  cases r with
  | text x => rfl
  | type | name | typeList | nameList | signature =>
    simp only [serve, same rfl]
    rfl

theorem orderly_iff {requests : List Request} :
    s.toInterner.Orderly requests ↔ Respell.Orderly requests s := by
  induction requests generalizing s with
  | nil => exact Iff.rfl
  | cons r rest ih =>
    refine and_congr_right fun fits => ?_
    rw [serve_of_fits fits]
    exact ih

/-- An orderly run of an interner that is a store's is the run of the store. -/
theorem serveAll_of_orderly {requests : List Request} (orderly : Respell.Orderly requests s) :
    s.toInterner.serveAll requests =
      ((Respell.serveAll requests s).1, (Respell.serveAll requests s).2.toInterner) := by
  induction requests generalizing s with
  | nil => rfl
  | cons r rest ih =>
    rw [serveAll_cons, serve_of_fits orderly.1, ih orderly.2]
    rfl

theorem reading_of_extends (e : s.toInterner.Extends i) {g : Given} (known : s.toInterner.Knows g) :
    i.reading g = s.toInterner.reading g := by
  have same (p : Part) (h : p.Handle) (settled : s.Settled p h) :
      i.unfold p h = s.toInterner.unfold p h := by
    rw [s.unfold_of_extends e p h settled, s.unfold_of_extends (.refl _) p h settled]
  cases g with
  | atom a =>
    obtain ⟨x, h⟩ := known
    have covers : s.CoversAtom a := Store.coversAtom_of_text? h
    simp only [reading, Store.text_of_extends e covers]
  | type =>
    obtain ⟨slot, n, rfl, h⟩ := known
    have settled : s.Settled .type (.stored slot) := Store.covers_of_node? h
    simp only [reading, same _ _ settled]
  | name n =>
    obtain ⟨node, h⟩ := known
    have settled : s.Settled .name n := Store.covers_of_node? h
    simp only [reading, same _ _ settled]
  | typeList list =>
    obtain ⟨types, h⟩ := known
    have list : i.typeList list = s.typeList list := by simp only [typeList, e.nodes h, h]
    simp only [reading, list, same _ _ (Store.settled_typeList (Store.covers_of_node? h))]
  | nameList list =>
    obtain ⟨names, h⟩ := known
    have list : i.nameList list = s.nameList list := by simp only [nameList, e.nodes h, h]
    simp only [reading, list, same _ _ (Store.settled_nameList (Store.covers_of_node? h))]
  | signature signature =>
    obtain ⟨f, h⟩ := known
    have shape : s.signature? signature = some f := by simp only [signature?, h]
    have later : i.signature? signature = some f := by simp only [signature?, e.nodes h]
    have name : s.Settled .optionalName f.name :=
      Store.covers_of_signature? shape (by simp [Node.ranks])
    have result : s.Settled .qualified f.result :=
      Store.covers_of_signature? shape (by simp [Node.ranks])
    simp only [reading, shape, later, same _ _ name, same _ _ result,
      same _ _ (Store.settled_arguments shape)]

/-! ### What is in the interner -/

theorem mem_nodes_internNode {n m : Node} :
    m ∈ (i.internNode n).2.nodes ↔ m ∈ i.nodes ∨ m = n := by
  constructor
  · unfold internNode
    split
    · exact Or.inl
    · exact fun h => Array.mem_push.mp h
  · rintro (h | rfl)
    · obtain ⟨k, hk, rfl⟩ := Array.mem_iff_getElem.mp h
      have old : i.node? (.entry k) = some i.nodes[k] := Array.getElem?_eq_getElem hk
      exact Array.mem_of_getElem? ((extends_internNode i n).nodes old)
    · have there := node?_internNode i m
      cases slot : (i.internNode m).1 with
      | foreign => simp [slot, node?] at there
      | entry k =>
        rw [slot] at there
        exact Array.mem_of_getElem? there

theorem mem_nodes_serve {r : Request} {m : Node} :
    m ∈ (i.serve r).2.nodes ↔ m ∈ i.nodes ∨ r.node? = some m := by
  cases r with
  | text x => simp [serve, Request.node?, internText]
  | type | name | typeList | nameList | signature =>
    refine mem_nodes_internNode.trans (or_congr_right ?_)
    simp only [Request.node?, Option.some.injEq]
    exact eq_comm

theorem mem_nodes_serveAll (requests : List Request) {m : Node} :
    m ∈ (i.serveAll requests).2.nodes ↔
      m ∈ i.nodes ∨ m ∈ requests.filterMap Request.node? := by
  induction requests generalizing i with
  | nil => simp [serveAll]
  | cons r rest ih =>
    rw [serveAll_cons, ih, mem_nodes_serve, or_assoc]
    simp [List.mem_filterMap]

theorem mem_texts_intern (table : TextTable) (x y : String) :
    y ∈ (table.intern x).2.texts ↔ y ∈ table.texts ∨ y = x := by
  unfold TextTable.intern
  split
  · rename_i index found
    have there : x ∈ table.texts := by
      by_contra absent
      rw [← Array.idxOf?_eq_none_iff] at absent
      simp [absent] at found
    constructor
    · exact Or.inl
    · rintro (h | rfl)
      · exact h
      · exact there
  · exact Array.mem_push

theorem mem_texts_internAll (table : TextTable) (texts : List String) (y : String) :
    y ∈ (table.internAll texts).texts ↔ y ∈ table.texts ∨ y ∈ texts := by
  induction texts generalizing table with
  | nil => simp [TextTable.internAll]
  | cons x rest ih =>
    rw [TextTable.internAll, List.foldl_cons, ← TextTable.internAll, ih, mem_texts_intern, or_assoc,
      List.mem_cons]

theorem texts_internNode (n : Node) (i : Interner) : (i.internNode n).2.texts = i.texts := by
  unfold internNode
  split <;> rfl

theorem mem_texts_serve {r : Request} {x : String} :
    x ∈ (i.serve r).2.texts.texts ↔ x ∈ i.texts.texts ∨ r.text? = some x := by
  have unchanged {n : Node} : x ∈ (i.internNode n).2.texts.texts ↔ x ∈ i.texts.texts := by
    rw [texts_internNode]
  cases r with
  | text y =>
    refine (mem_texts_intern i.texts y x).trans (or_congr_right ?_)
    simp only [Request.text?, Option.some.injEq]
    exact eq_comm
  | type | name | typeList | nameList | signature =>
    simp only [Request.text?, reduceCtorEq, or_false]
    exact unchanged

theorem mem_texts_serveAll (requests : List Request) {x : String} :
    x ∈ (i.serveAll requests).2.texts.texts ↔
      x ∈ i.texts.texts ∨ x ∈ requests.filterMap Request.text? := by
  induction requests generalizing i with
  | nil => simp [serveAll]
  | cons r rest ih =>
    rw [serveAll_cons, ih, mem_texts_serve, or_assoc]
    simp [List.mem_filterMap]

/-! ### Counting -/

theorem length_eq_card_toFinset {α : Type} [DecidableEq α] {l l' : List α} (nodup : l.Nodup)
    (same : ∀ x, x ∈ l ↔ x ∈ l') : l.length = l'.toFinset.card := by
  rw [← List.toFinset_card_of_nodup nodup]
  congr 1
  ext x
  simp only [List.mem_toFinset, same]

theorem countP_nodes {α : Type} [DecidableEq α] {kind : Node → Bool} {node : α → Node}
    {values : List α} (injective : Function.Injective node)
    (kinds : ∀ n, kind n = true ↔ ∃ a, node a = n) (same : ∀ a, node a ∈ i.nodes ↔ a ∈ values) :
    i.nodes.countP kind = values.toFinset.card := by
  have length : i.nodes.countP kind = (i.nodes.toList.filter kind).length := by
    rw [← Array.countP_toList, List.countP_eq_length_filter]
  have members : (i.nodes.toList.filter kind).toFinset = values.toFinset.image node := by
    ext n
    simp only [List.mem_toFinset, List.mem_filter, Finset.mem_image, Array.mem_toList_iff, kinds]
    constructor
    · rintro ⟨hn, a, rfl⟩
      exact ⟨a, (same a).mp hn, rfl⟩
    · rintro ⟨a, ha, rfl⟩
      exact ⟨(same a).mpr ha, a, rfl⟩
  rw [length, ← List.toFinset_card_of_nodup (i.nodup.filter _), members,
    Finset.card_image_of_injective _ injective]

theorem mem_nodes_initial (requests : List Request) {n : Node} :
    n ∈ (initial.serveAll requests).2.nodes ↔ n ∈ requests.filterMap Request.node? := by
  rw [mem_nodes_serveAll]
  simp [initial, ofTexts]

theorem typeCount_serveAll (requests : List Request) :
    (initial.serveAll requests).2.typeCount =
      TypeId.intrinsicCount + (requests.filterMap Request.type?).toFinset.card := by
  rw [typeCount]
  congr 1
  apply countP_nodes fun _ _ => Node.type.inj
  · intro n
    cases n <;> simp [Node.isType]
  · intro a
    have asked : ∀ r : Request, r.node? = some (.type a) ↔ r.type? = some a := by
      intro r
      cases r <;> simp [Request.node?, Request.type?]
    simp only [mem_nodes_initial, List.mem_filterMap, asked]

theorem nameCount_serveAll (requests : List Request) :
    (initial.serveAll requests).2.nameCount =
      (requests.filterMap Request.name?).toFinset.card := by
  apply countP_nodes fun _ _ => Node.name.inj
  · intro n
    cases n <;> simp [Node.isName]
  · intro a
    have asked : ∀ r : Request, r.node? = some (.name a) ↔ r.name? = some a := by
      intro r
      cases r <;> simp [Request.node?, Request.name?]
    simp only [mem_nodes_initial, List.mem_filterMap, asked]

theorem textCount_serveAll (requests : List Request) :
    (initial.serveAll requests).2.textCount =
      ("" :: TextTable.commonTexts ++ requests.filterMap Request.text?).toFinset.card := by
  rw [textCount, TextTable.size, ← Array.length_toList]
  refine length_eq_card_toFinset (TextTable.nodup _) ?_
  intro x
  rw [Array.mem_toList_iff, mem_texts_serveAll]
  simp only [initial, ofTexts, TextTable.common, mem_texts_internAll]
  simp [TextTable.empty, or_assoc]

/-! ### Canonical and persistent -/

/-- After any run, handles of parts that the interner gave out are equal exactly if their trees are,
the empty text has one atom, and the counts are the numbers of the different types, names and texts
that were asked for. After an orderly run the interner is a store's, and everything that was given
out reads the same after any more requests, orderly or not. -/
theorem serveAll_canonical {requests : List Request} {given : List Given}
    (run : initial.serveAll requests = (given, i)) :
    (∀ (p : Part) (h h' : p.Handle), (i.unfold p h).Grounded i → (i.unfold p h').Grounded i →
      (h = h' ↔ (i.unfold p h).tree = (i.unfold p h').tree)) ∧
    (initial.Orderly requests → (∃ s : Store, i = s.toInterner) ∧
      ∀ g ∈ given, ∀ more : List Request, (i.serveAll more).2.reading g = i.reading g) ∧
    (∀ a : Atom, .atom a ∈ given → (a = .none ↔ i.text a = "")) ∧
    i.typeCount =
      TypeId.intrinsicCount + (requests.filterMap Request.type?).toFinset.card ∧
    i.nameCount = (requests.filterMap Request.name?).toFinset.card ∧
    i.textCount =
      ("" :: TextTable.commonTexts ++ requests.filterMap Request.text?).toFinset.card := by
  have known := knows_serveAll requests initial
  have types := typeCount_serveAll requests
  have names := nameCount_serveAll requests
  have texts := textCount_serveAll requests
  rw [run] at known types names texts
  refine ⟨?_, ?_, fun a ha => eq_none_iff_text (known _ ha), types, names, texts⟩
  · intro p h h' grounded grounded'
    constructor
    · rintro rfl
      rfl
    · exact eq_of_tree_unfold grounded grounded'
  · intro orderly
    have ordered : initial.serveAll requests = _ :=
      serveAll_of_orderly (orderly_iff (s := .initial).mp orderly)
    obtain ⟨rfl, rfl⟩ := Prod.mk.inj (run.symm.trans ordered)
    exact ⟨⟨_, rfl⟩, fun g hg more => reading_of_extends (extends_serveAll more _) (known g hg)⟩

def firstInt : TypeId := (Store.internType (.integer .int) .initial).1

def pointerTwice : List Request :=
  [.type (.integer .int), .type (.pointer ⟨firstInt, .none⟩), .text "lines",
    .type (.pointer ⟨firstInt, .none⟩)]

theorem fits_firstInt : Store.initial.Fits (.type (.integer .int)) :=
  Store.fits_type (by simp [Node.ranks])

theorem orderly_pointerTwice : initial.Orderly pointerTwice := by
  obtain ⟨slot, stored, node⟩ := Store.node?_internType fits_firstInt
  have covers : (Store.internType (.integer .int) .initial).2.Covers firstInt.rank := by
    rw [firstInt, stored]
    exact Store.covers_of_node? node
  have pointer {t : Store} (e : (Store.internType (.integer .int) .initial).2.Extends t) :
      t.Fits (.type (.pointer ⟨firstInt, .none⟩)) := by
    refine Store.fits_type ?_
    intro r hr
    rw [List.mem_singleton.mp hr]
    exact covers.extend e
  apply (orderly_iff (s := .initial)).mpr
  simp only [pointerTwice, orderly_type, orderly_text, orderly_nil, and_true]
  exact ⟨fits_firstInt, pointer (.refl _),
    pointer ((Store.extends_internType _ _).trans (Store.extends_internText _ _))⟩

theorem unfold_firstInt :
    (initial.serveAll pointerTwice).2.unfold .type firstInt = .integer .int := by
  obtain ⟨slot, stored, node⟩ := Store.node?_internType fits_firstInt
  have first : (initial.serve (.type (.integer .int))).2.node? slot =
      some (.type (.integer .int)) := by
    have served : initial.serve (.type (.integer .int)) = _ :=
      serve_of_fits (s := .initial) fun n asked => Option.some.inj asked ▸ fits_firstInt
    rw [served]
    exact node
  have there : (initial.serveAll pointerTwice).2.node? slot = some (.type (.integer .int)) := by
    rw [pointerTwice, serveAll_cons]
    exact (extends_serveAll _ _).nodes first
  rw [firstInt, stored]
  simp only [unfold, Readings.part, readings, typeNode?, there]
  rfl

theorem serveAll_canonical_pointerTwice :
    firstInt ≠ .void ∧ (initial.serveAll pointerTwice).2.typeCount = 18 ∧
      (initial.serveAll pointerTwice).2.nameCount = 0 ∧
      ∀ g ∈ (initial.serveAll pointerTwice).1, ∀ more : List Request,
        ((initial.serveAll pointerTwice).2.serveAll more).2.reading g =
          (initial.serveAll pointerTwice).2.reading g := by
  obtain ⟨canonical, ordered, -, types, names, -⟩ := serveAll_canonical (Prod.eta _).symm
  obtain ⟨-, persistent⟩ := ordered orderly_pointerTwice
  have asked : pointerTwice.filterMap Request.type? =
      [.integer .int, .pointer ⟨firstInt, .none⟩, .pointer ⟨firstInt, .none⟩] := rfl
  refine ⟨?_, ?_, names.trans rfl, persistent⟩
  · intro equal
    have known : (Unfolding.integer .int).Grounded (initial.serveAll pointerTwice).2 := trivial
    rw [← unfold_firstInt] at known
    have same := (canonical .type firstInt .void known trivial).mp equal
    rw [unfold_firstInt] at same
    cases same
  · rw [types, asked]
    simp [TypeId.intrinsicCount]

/-- An interner with a function type whose shape is the entry that comes next. -/
def awaiting : Interner :=
  initial.push (.type (.function ⟨.entry 1⟩)) (by simp [initial, ofTexts])

theorem serveAll_awaiting : initial.serveAll [.type (.function ⟨.entry 1⟩)] =
    ([.type (.stored (.entry 0))], awaiting) := by
  simp only [serveAll, serve]
  rw [internNode_of_fresh (by simp [initial, ofTexts])]
  rfl

def awaited : Signature := { name := none, result := ⟨.void, .none⟩, arguments := [] }

/-- A function type that comes before its shape has none at first, and one later; and an atom that
was never given out has the empty text too. -/
theorem not_persistent_awaiting :
    (¬ ∀ (requests more : List Request), ∀ g ∈ (initial.serveAll requests).1,
      ((initial.serveAll requests).2.serveAll more).2.reading g =
        (initial.serveAll requests).2.reading g) ∧
    ¬ ∀ a : Atom, a = .none ↔ initial.text a = "" := by
  constructor
  · intro persistent
    have absent : .signature awaited ∉ awaiting.nodes := by simp [awaiting, push, initial, ofTexts]
    have later : (awaiting.serveAll [.signature awaited]).2 = awaiting.push _ absent := by
      simp only [serveAll, serve]
      rw [internNode_of_fresh absent]
    have same := persistent [.type (.function ⟨.entry 1⟩)] [.signature awaited]
      (.type (.stored (.entry 0)))
    rw [serveAll_awaiting, later] at same
    have before : awaiting.reading (.type (.stored (.entry 0))) =
        .tree .type (.shapeless ⟨.entry 1⟩) := rfl
    have after : (awaiting.push _ absent).reading (.type (.stored (.entry 0))) =
        .tree .type (.function .noName (.qual .void .none) .noArguments {}) := rfl
    rw [before, after] at same
    simp at same
  · intro only
    exact absurd ((only ⟨.foreign 0⟩).mpr rfl) (by decide)

end Interner
end Respell

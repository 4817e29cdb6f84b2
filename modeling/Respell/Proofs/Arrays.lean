import Respell.Proofs.Declarators
import Respell.Proofs.Output

/-! Qualifiers at the position of an array. An array leaves them out of its text, while an element
that has them may show them. Main statement: the text of an array with more qualifiers is the text
of the array of an element with these qualifiers exactly when the element hides them or has them
already (`arrayText_qualify_iff`). -/
namespace Respell

open Store Rewriting

/-- Arrays of arrays, the size of the outermost first. -/
def arrayType (element : QualType) : List UInt32 → Storing QualType
  | [] => pure element
  | size :: sizes => do
    let inside ← arrayType element sizes
    let type ← internType (.array inside size)
    pure ⟨type, .none⟩

namespace Tree

def arrays (element : Tree .qualified) : List UInt32 → Tree .qualified
  | [] => element
  | size :: sizes => .qual (.array (arrays element sizes) size) .none

/-- Sizes as they are written behind what is declared, the outermost first. -/
def dimensions (sizes : List UInt32) : String :=
  String.join (sizes.map fun size => "[" ++ toString size.toNat ++ "]")

theorem print_arrays (spell : SymbolId → Option String) (element : Tree .qualified)
    (sizes : List UInt32) (inner : String) :
    (arrays element sizes).print spell inner = element.print spell (inner ++ dimensions sizes) := by
  induction sizes generalizing inner with
  | nil => simp [arrays, dimensions]
  | cons size sizes ih =>
    simp only [arrays, print, ih, dimensions, List.map_cons, String.join_cons, String.append_assoc]

theorem isEmpty_dimensions {sizes : List UInt32} (some_ : sizes ≠ []) (inner : String) :
    (inner ++ dimensions sizes).isEmpty = false := by
  obtain ⟨size, rest, rfl⟩ := List.exists_cons_of_ne_nil some_
  have bracket : "[".isEmpty = false := rfl
  simp [dimensions, isEmpty_append, bracket]

end Tree

variable {s : Store} {exact : Prop}

theorem yields_arrayType {tree : Tree .qualified} {element : QualType}
    (d : s.Denotes exact tree element) (sizes : List UInt32) :
    Yields id s (arrayType element sizes) fun t h => t.Denotes exact (.arrays tree sizes) h := by
  induction sizes with
  | nil => exact .pure fun t grows => d.extend grows
  | cons size sizes ih =>
    apply ih.bind
    intro t inside _ d
    apply (yields_array size d).bind
    intro u type _ d
    exact .pure fun v grows => denotes_qual .none (d.extend grows)

theorem extends_arrayType {element : QualType} (settled : s.Settled .qualified element)
    (sizes : List UInt32) : s.Extends (arrayType element sizes s).2 :=
  have d : s.Denotes False (s.partTree .qualified element) element := ⟨settled, rfl, False.elim⟩
  (yields_arrayType d sizes s (.refl s)).1

/-- Whatever the qualifiers of its position, an array is printed as its element around the text
inside and the sizes. -/
theorem declarationText_arrayType {t : Store} {element : QualType}
    (settled : s.Settled .qualified element) {sizes : List UInt32} (some_ : sizes ≠ [])
    (later : (arrayType element sizes s).2.Extends t) (q : Qualifiers)
    (spell : SymbolId → Option String) (inner : String) :
    t.declarationText spell ⟨(arrayType element sizes s).1.type, q⟩ inner =
      (s.qualTree element).print spell (inner ++ Tree.dimensions sizes) := by
  obtain ⟨size, sizes, rfl⟩ := List.exists_cons_of_ne_nil some_
  have d : s.Denotes False (s.partTree .qualified element) element := ⟨settled, rfl, False.elim⟩
  have reads := ((yields_arrayType d (size :: sizes) s (.refl s)).2.type.1.extend later).reads
  have tree : t.qualTree ⟨(arrayType element (size :: sizes) s).1.type, q⟩ =
      .qual (.array (.arrays (s.qualTree element) sizes) size) q := by
    rw [qualTree]
    exact congrArg (Tree.qual · q) reads
  rw [declarationText, tree]
  exact Tree.print_arrays spell (s.qualTree element) (size :: sizes) inner

theorem isUndefined_arrayType (s : Store) (element : QualType) {sizes : List UInt32}
    (some_ : sizes ≠ []) : (arrayType element sizes s).1.isUndefined = false := by
  obtain ⟨size, sizes, rfl⟩ := List.exists_cons_of_ne_nil some_
  rfl

/-- With the store `t`, the type is printed around `inner` like the array whose element has the
qualifiers. -/
def PrintsAsMoved (t : Store) (spell : SymbolId → Option String) (inner : String)
    (element : QualType) (more : Qualifiers) (sizes : List UInt32) (array : QualType) : Prop :=
  (arrayType (element.qualify more) sizes t).2.declarationText spell array inner =
    (arrayType (element.qualify more) sizes t).2.declarationText spell
      (arrayType (element.qualify more) sizes t).1 inner

/-- The text of a type is the same with more qualifiers: the type does not show them, or has
them. -/
def Store.HidesMore (s : Store) (element : QualType) (more : Qualifiers) : Prop :=
  (s.typeTree element.type).showsQualifiers = false ∨
    ∀ c, more.contains c = true → element.qualifiers.contains c = true

theorem printsAsMoved_iff {t : Store} {element : QualType} {more : Qualifiers}
    {sizes : List UInt32} (settled : s.Settled .qualified element) (cv : more.OnlyCv)
    (some_ : sizes ≠ []) (later : (arrayType element sizes s).2.Extends t)
    (spell : SymbolId → Option String) (inner : String) :
    PrintsAsMoved t spell inner element more sizes ((arrayType element sizes s).1.qualify more) ↔
      s.HidesMore element more := by
  have grows := (extends_arrayType settled sizes).trans later
  have settled' : t.Settled .qualified (element.qualify more) :=
    Settled.extend (p := .type) settled grows
  have read : t.typeTree element.type = s.typeTree element.type :=
    partTree_extend (p := .type) grows settled
  have kept : (arrayType (element.qualify more) sizes t).2.declarationText spell
      ((arrayType element sizes s).1.qualify more) inner =
        (s.typeTree element.type).print spell element.qualifiers
          (inner ++ Tree.dimensions sizes) := by
    have text := declarationText_arrayType settled some_
      (later.trans (extends_arrayType settled' sizes))
      ((arrayType element sizes s).1.qualifiers ∪ more) spell inner
    rwa [qualTree, Tree.print] at text
  have moved : (arrayType (element.qualify more) sizes t).2.declarationText spell
      (arrayType (element.qualify more) sizes t).1 inner =
        (s.typeTree element.type).print spell (element.qualifiers ∪ more)
          (inner ++ Tree.dimensions sizes) := by
    have text := declarationText_arrayType settled' some_ (.refl _)
      (arrayType (element.qualify more) sizes t).1.qualifiers spell inner
    rwa [qualTree, Tree.print, QualType.qualify, read] at text
  rw [PrintsAsMoved, kept, moved, eq_comm]
  exact Tree.print_union_iff cv (Tree.isEmpty_dimensions some_ inner)

theorem onlyCv_const : (Qualifiers.single .const).OnlyCv := by
  intro c mem
  rw [Qualifiers.contains_single, decide_eq_true_eq] at mem
  exact .inl mem.symm

section integers

variable {kind : IntegerKind} {type : TypeId}

theorem denotes_integerType (kind : IntegerKind) (s : Store) :
    (internType (.integer kind) s).2.Denotes False (.integer kind) (internType (.integer kind) s).1 :=
  (yields_integer kind s (.refl _)).2

theorem settled_integerType (kind : IntegerKind) (s : Store) (q : Qualifiers) :
    (internType (.integer kind) s).2.Settled .qualified ⟨(internType (.integer kind) s).1, q⟩ :=
  (denotes_integerType kind s).settled

theorem not_hidesMore_integer (read : s.typeTree type = .integer kind) :
    ¬ s.HidesMore ⟨type, .none⟩ (.single .const) := by
  rintro (hidden | has)
  · rw [read] at hidden
    cases hidden
  · exact absurd (has .const (by decide)) (by simp [Qualifiers.contains_none])

theorem declarationText_integers {q : Qualifiers} (settled : s.Settled .qualified ⟨type, q⟩)
    (read : s.typeTree type = .integer kind) {sizes : List UInt32} (some_ : sizes ≠ [])
    (later : (arrayType ⟨type, q⟩ sizes s).2.Extends t) (more : Qualifiers)
    (spell : SymbolId → Option String) (inner : String) :
    t.declarationText spell ⟨(arrayType ⟨type, q⟩ sizes s).1.type, more⟩ inner =
      (Tree.qual (.integer kind) q).print spell (inner ++ Tree.dimensions sizes) := by
  rw [declarationText_arrayType settled some_ later, qualTree, read]

theorem typeText_integers {q : Qualifiers} (settled : s.Settled .qualified ⟨type, q⟩)
    (read : s.typeTree type = .integer kind) {sizes : List UInt32} (some_ : sizes ≠ [])
    (spell : SymbolId → Option String) :
    (arrayType ⟨type, q⟩ sizes s).2.typeText spell (arrayType ⟨type, q⟩ sizes s).1 =
      (Tree.qual (.integer kind) q).print spell ("" ++ Tree.dimensions sizes) :=
  declarationText_integers settled read some_ (.refl _) _ spell ""

end integers

def intType : TypeId × Store := internType (.integer .int) .initial

/-- Qualifiers at the position of an array are in its text, as they are in the text of the array of
an element that has them, only where such an element would not show them or has them anyway. This is
so for the qualifiers that a rewrite adds to an array with which it is answered, too. -/
theorem arrayText_qualify_iff {element : QualType} {more : Qualifiers} {sizes : List UInt32}
    (settled : s.Settled .qualified element) (cv : more.OnlyCv) (some_ : sizes ≠ []) :
    (∀ (t : Store) (spell : SymbolId → Option String) (inner : String),
      (arrayType element sizes s).2.Extends t →
        (PrintsAsMoved t spell inner element more sizes
            ((arrayType element sizes s).1.qualify more) ↔ s.HidesMore element more)) ∧
    ∀ (e : Environment) (x : Session) (slot : Slot) (name : NameId)
      (spell : SymbolId → Option String) (inner : String),
      (arrayType element sizes s).2.Extends x.store →
        x.store.typeNode? slot = some (.named name) →
        (e.ask name x.store).1.type = (arrayType element sizes s).1 →
        (PrintsAsMoved (rewriteQual e ⟨.stored slot, more⟩ x).2.store spell inner element more sizes
            (rewriteQual e ⟨.stored slot, more⟩ x).1 ↔ s.HidesMore element more) := by
  refine ⟨fun t spell inner later => printsAsMoved_iff settled cv some_ later spell inner, ?_⟩
  intro e x slot name spell inner later node answered
  have present := isUndefined_arrayType s element some_
  rw [← answered] at present
  obtain ⟨merged, store⟩ := rewriteQual_of_answered node present more
  rw [merged, store, answered]
  exact printsAsMoved_iff settled cv some_ (later.trans (e.extends_ask name x.store)) spell inner

/-- The element is qualified already. -/
theorem arrayText_qualify_iff_constElement :
    PrintsAsMoved (arrayType ⟨intType.1, .single .const⟩ [3, 2] intType.2).2 noSpelling "xs"
      ⟨intType.1, .single .const⟩ (.single .const) [3, 2]
      ((arrayType ⟨intType.1, .single .const⟩ [3, 2] intType.2).1.qualify (.single .const)) :=
  ((arrayText_qualify_iff (settled_integerType .int .initial (.single .const)) onlyCv_const
    (List.cons_ne_nil 3 [2])).1 _ _ _ (.refl _)).mpr (.inr fun _ mem => mem)

/-- A constant type that is bound to an array of integers. -/
def constArray : Document where
  type := some (.qual (.named (.spelled "T")) [.const])
  bindings := [⟨.spelled "T", .qual (.array (.qual (.integer .int) []) 3) []⟩]

def intArray : QualType × Store := arrayType ⟨intType.1, .none⟩ [3] intType.2

/-- The qualifier is in the text of an array of constant integers, but not in the text of a constant
array of integers, nor in the output of a document that comes to one. -/
theorem constArray_hides_const :
    (constArray.report false).map (·.output) = .ok "int [3]" ∧
      intArray.2.typeText noSpelling (intArray.1.qualify (.single .const)) = "int [3]" ∧
      (arrayType ⟨intType.1, .single .const⟩ [3] intArray.2).2.typeText noSpelling
        (arrayType ⟨intType.1, .single .const⟩ [3] intArray.2).1 = "const int [3]" ∧
      ¬ PrintsAsMoved intArray.2 noSpelling "" ⟨intType.1, .none⟩ (.single .const) [3]
        (intArray.1.qualify (.single .const)) := by
  have settled : intType.2.Settled .qualified ⟨intType.1, .none⟩ :=
    settled_integerType .int .initial .none
  have read : intType.2.typeTree intType.1 = .integer .int :=
    (denotes_integerType .int .initial).reads
  have grows : intType.2.Extends intArray.2 := extends_arrayType settled [3]
  have one : [(3 : UInt32)] ≠ [] := List.cons_ne_nil 3 []
  refine ⟨?_, ?_, ?_, ?_⟩
  · have meaning : constArray.meaning = .ok
        { bindings := [⟨.identifier "T", .qual (.array (.qual (.integer .int) .none) 3) .none⟩]
          declarations := .empty
          scope := []
          subject := .type (.qual (.named (.identifier "T")) (.single .const)) } := by
      decide +kernel
    exact (Document.output_of_meaning meaning false).trans (congrArg Except.ok (by decide))
  · exact (declarationText_integers settled read one (.refl _) _ _ _).trans (by decide)
  · have const : intArray.2.Settled .qualified ⟨intType.1, .single .const⟩ :=
      (settled_integerType .int .initial (.single .const)).extend grows
    have read' : intArray.2.typeTree intType.1 = .integer .int :=
      ((denotes_integerType .int .initial).extend grows).reads
    exact (typeText_integers const read' one noSpelling).trans (by decide)
  · exact (printsAsMoved_iff settled onlyCv_const one (.refl _) noSpelling "").not.mpr
      (not_hidesMore_integer read)

end Respell

import Respell.Proofs.Reading
import Respell.Proofs.Shapes

/-! Types that print unambiguously. A readable tree has nothing that its spelling leaves out: basic
types and types called by one word, with pointers, references, arrays and functions around them.
Main statements: what a readable tree prints is read back as the tree (`read_print`), so that the
types of a store whose trees are readable never print alike (`eq_of_typeText_eq`). -/
namespace Respell

/-! ### Readable trees -/

/-- Words that mean something of their own in a type, so that no type can be called by them. -/
def reservedWords : List String :=
  ["...", "const", "volatile", "signed", "unsigned", "void", "char", "wchar_t", "char16_t",
    "char32_t", "bool", "short", "int", "long", "float", "double"]

def Qualifiers.Within (q : Qualifiers) (allowed : List Qualifier) : Prop :=
  ∀ x, q.contains x = true → x ∈ allowed

namespace Tree

/-- Printing shows all of these qualifiers: specifiers show `const`, `volatile` and one sign, a
pointer mark shows `const` and `volatile`, and the other declarators show none. -/
def Shows : Tree .type → Qualifiers → Prop
  | void, q | integer _, q | float _, q | named _, q =>
    q.Within shownQualifiers ∧ ¬ (q.contains .signed = true ∧ q.contains .unsigned = true)
  | pointer _, q => q.Within [.const, .volatile]
  | _, q => q = .none

/-- All of the tree is there to see in its spelling. -/
def Readable : {p : Part} → Tree p → Prop
  | _, void | _, integer _ | _, float _ => True
  | _, named (identifier text) => IsWord text ∧ text ∉ reservedWords
  | _, pointer element | _, reference element | _, array element _ => element.Readable
  | _, function name result arguments attributes =>
    name = noName ∧ result.Readable ∧ arguments.Readable ∧
      attributes = { variadic := attributes.variadic, const := attributes.const,
                     volatile := attributes.volatile }
  | _, qual type q => type.Readable ∧ type.Shows q
  | _, noArguments => True
  | _, consArgument name type defaultValue storage rest =>
    name = noName ∧ type.Readable ∧ defaultValue = none ∧ storage = .none ∧ rest.Readable
  | _, _ => False

end Tree

/-! ### Specifiers -/

namespace Qualifiers

theorem contains_ofList (qs : List Qualifier) (x : Qualifier) :
    (ofList qs).contains x = decide (x ∈ qs) := by
  have all : ∀ s : Qualifiers, (qs.foldl (fun s q => s ∪ single q) s).contains x =
      (s.contains x || decide (x ∈ qs)) := by
    induction qs with
    | nil => simp
    | cons q rest ih =>
      intro s
      rw [List.foldl_cons, ih, contains_union, contains_single, Bool.or_assoc]
      simp [eq_comm]
  simp [ofList, all]

theorem ofWords_eq {q : Qualifiers} {words : List String} (within : q.Within shownQualifiers)
    (told : ∀ x ∈ shownQualifiers, Vocabulary.word x ∈ words ↔ q.contains x = true) :
    ofWords words = q := by
  apply ext_contains
  intro x
  rw [ofWords, contains_ofList, Bool.eq_iff_iff, decide_eq_true_iff, List.mem_filter,
    decide_eq_true_iff]
  exact ⟨fun ⟨mem, said⟩ => (told x mem).mp said, fun has =>
    ⟨within x has, (told x (within x has)).mpr has⟩⟩

theorem ofWords_cvWords {q : Qualifiers} (within : q.Within [.const, .volatile]) :
    ofWords q.cvWords = q := by
  apply ofWords_eq
  · intro x has
    exact List.mem_append_left [Qualifier.signed, .unsigned] (within x has)
  · have signed := within .signed
    have unsigned := within .unsigned
    simp_all [mem_cvWords, Vocabulary.word, shownQualifiers]

theorem ofWords_specifiers {q : Qualifiers} {base : List String}
    (within : q.Within shownQualifiers)
    (one : ¬ (q.contains .signed = true ∧ q.contains .unsigned = true))
    (plain : ∀ word ∈ base, word ∉ shownWords) :
    ofWords (q.cvWords ++ q.signWords ++ base) = q := by
  apply ofWords_eq within
  have absent : ∀ word ∈ shownWords, word ∉ base := fun word mem has => plain word has mem
  simp_all [mem_cvWords, mem_signWords, Vocabulary.word, shownWords, shownQualifiers]

end Qualifiers

/-- The text is of words, and these stand for the type where no qualifiers are among them. -/
def Specifies (text : String) (type : Tree .type) : Prop :=
  ∃ words, lexemes text = words.map .word ∧ words ≠ [] ∧
    (∀ word ∈ words, word ∉ "..." :: shownWords) ∧
    (basicTypes.lookup words).getD (.named (.identifier (words.headD ""))) = type

theorem specifies_void : Specifies "void" .void :=
  ⟨["void"], by decide, by decide, by decide, rfl⟩

theorem specifies_integer (kind : IntegerKind) : Specifies kind.spelling (.integer kind) := by
  cases kind with
  | longLong => exact ⟨["long", "long"], by decide, by decide, by decide, rfl⟩
  | _ => exact ⟨[_], lexemes_of_isWord (by decide), by decide, by decide, rfl⟩

theorem specifies_float (kind : FloatKind) : Specifies kind.spelling (.float kind) := by
  cases kind with
  | longDouble => exact ⟨["long", "double"], by decide, by decide, by decide, rfl⟩
  | _ => exact ⟨[_], lexemes_of_isWord (by decide), by decide, by decide, rfl⟩

theorem specifies_identifier {text : String} (word : IsWord text) (free : text ∉ reservedWords) :
    Specifies text (.named (.identifier text)) := by
  refine ⟨[text], lexemes_of_isWord word, by simp, ?_, ?_⟩
  · simp_all [reservedWords, shownWords]
  · have unknown : basicTypes.lookup [text] = none := by
      simp_all [reservedWords, basicTypes, List.lookup_eq_none_iff]
    rw [unknown]
    rfl

theorem filter_specifiers {q : Qualifiers} {base : List String}
    (plain : ∀ word ∈ base, word ∉ shownWords) :
    (q.cvWords ++ q.signWords ++ base).filter (· ∉ shownWords) = base := by
  have dropped : (q.cvWords ++ q.signWords).filter (· ∉ shownWords) = [] := by
    rw [List.filter_eq_nil_iff]
    intro word mem
    rw [List.mem_append, Qualifiers.mem_cvWords, Qualifiers.mem_signWords] at mem
    rcases mem with (⟨rfl, -⟩ | ⟨rfl, -⟩) | ⟨rfl, -⟩ | ⟨rfl, -⟩ <;> decide
  rw [List.filter_append, dropped, List.nil_append, List.filter_eq_self]
  exact fun word mem => decide_eq_true (plain word mem)

theorem Specifies.reads {spelling inner : String} {type : Tree .type} {q : Qualifiers}
    {marks suffixes : List Layer}
    (h : Specifies spelling type) (within : q.Within shownQualifiers)
    (one : ¬ (q.contains .signed = true ∧ q.contains .unsigned = true))
    (declares : Declares (lexemes inner) marks suffixes) :
    Reads (lexemes (specifierText q spelling inner))
      ((marks.reverse ++ suffixes).foldl Layer.around (.qual type q)) := by
  obtain ⟨base, spelled, some, free, known⟩ := h
  have words : lexemes (specifierText q spelling inner) =
      (q.cvWords ++ q.signWords ++ base).map .word ++ lexemes inner := by
    rw [specifierText, lexemes_joinWords, List.flatMap_append,
      flatMap_lexemes fun _ => Qualifiers.isWord_of_mem]
    simp [spelled]
  have plain : ∀ word ∈ base, word ∉ shownWords :=
    fun word mem has => free word mem (List.mem_cons_of_mem _ has)
  have reads : readSpecifiers (q.cvWords ++ q.signWords ++ base) = .qual type q := by
    rw [readSpecifiers, filter_specifiers plain, known,
      Qualifiers.ofWords_specifiers within one plain]
  intro arguments outer
  refine ⟨⟨arguments, q.cvWords ++ q.signWords ++ base, marks, suffixes⟩, ?_, rfl, ?_, ?_, ?_⟩
  · rw [words, Reader.run_append, Reader.run_specifiers, declares, List.append_nil]
    rfl
  · rw [Pending.type, reads]
    rfl
  · simp [some]
  · intro dots
    obtain ⟨word, mem⟩ := List.exists_mem_of_ne_nil base some
    have is : word ∈ ["..."] := dots ▸ List.mem_append_right _ mem
    exact free word mem (List.mem_cons.mpr (.inl (List.mem_singleton.mp is)))

/-! ### Whole trees -/

theorem Layer.around_function {attributes : FunctionAttributes}
    (plain : attributes = { variadic := attributes.variadic, const := attributes.const,
                            volatile := attributes.volatile })
    (result : Tree .qualified) (types : List (Tree .qualified)) :
    (function types attributes.variadic (attributeWords attributes)).around result =
      .qual (.function .noName result (.unnamed types) attributes) .none := by
  have const : decide ("const" ∈ attributeWords attributes) = attributes.const := by
    cases set : attributes.const <;> simp [attributeWords, set]
  have volatile : decide ("volatile" ∈ attributeWords attributes) = attributes.volatile := by
    cases set : attributes.volatile <;> simp [attributeWords, set]
  rw [around, const, volatile, ← plain]

namespace Tree

variable {spell : SymbolId → Option String}

/-- The spelling of a part is read back as the part, in whatever declarator a type stands. -/
def Faithful (spell : SymbolId → Option String) : {p : Part} → Tree p → Prop
  | .type, type => ∀ q inner marks suffixes, type.Shows q →
      Declares (lexemes inner) marks suffixes →
      ((qual type q).bindsTighter = true → marks = []) →
      Reads (lexemes (type.print spell q inner))
        ((marks.reverse ++ suffixes).foldl Layer.around (qual type q))
  | .qualified, type => ∀ inner marks suffixes, Declares (lexemes inner) marks suffixes →
      (type.bindsTighter = true → marks = []) →
      Reads (lexemes (type.print spell inner)) ((marks.reverse ++ suffixes).foldl Layer.around type)
  | .arguments, arguments => ∃ types, arguments = unnamed types ∧
      List.Forall₂ Reads ((arguments.print spell).map lexemes) types
  | _, _ => True

theorem Faithful.reads_parenthesize {element : Tree .qualified} {declarator : String}
    {marks suffixes : List Layer} {layer : Layer} (faithful : element.Faithful spell)
    (declares : Declares (lexemes declarator) (marks ++ [layer]) suffixes) :
    Reads (lexemes (element.print spell (element.parenthesize declarator)))
      ((marks.reverse ++ suffixes).foldl Layer.around (layer.around element)) := by
  unfold parenthesize
  split
  · have grouped : lexemes ("(" ++ declarator ++ ")") =
        .openParen :: lexemes declarator ++ [.closeParen] := by
      rw [lexemes_append (by simp [endsWord, Lexeme.ofMark?]), lexemes_mark rfl rfl]
      rfl
    have reads := faithful _ [] _ (grouped ▸ declares.group (by simp)) fun _ => rfl
    simpa using reads
  · next loose =>
    have reads := faithful _ _ _ declares fun tight => absurd tight loose
    simpa using reads

theorem faithful_of_readable {p : Part} {t : Tree p} (readable : t.Readable) :
    t.Faithful spell := by
  -- Each type hands its declarator on to its element, so the declarator inside is any.
  induction t with
  | void =>
    intro q inner marks suffixes shown declares _
    exact specifies_void.reads shown.1 shown.2 declares
  | integer kind =>
    intro q inner marks suffixes shown declares _
    exact (specifies_integer kind).reads shown.1 shown.2 declares
  | float kind =>
    intro q inner marks suffixes shown declares _
    exact (specifies_float kind).reads shown.1 shown.2 declares
  | named name _ =>
    cases name with
    | identifier text =>
      intro q inner marks suffixes shown declares _
      exact (specifies_identifier readable.1 readable.2).reads shown.1 shown.2 declares
    | _ => exact readable.elim
  | pointer element ih =>
    intro q inner marks suffixes shown declares _
    have further := declares.pointer q.cvWords
    rw [← lexemes_pointerDeclarator] at further
    have reads := (ih readable).reads_parenthesize further
    rwa [Layer.around, Qualifiers.ofWords_cvWords shown] at reads
  | reference element ih =>
    intro q inner marks suffixes shown declares _
    obtain rfl : q = .none := shown
    have further := declares.reference
    rw [← lexemes_amper] at further
    exact (ih readable).reads_parenthesize further
  | array element size ih =>
    intro q inner marks suffixes shown declares tight
    obtain rfl := tight rfl
    obtain rfl : q = .none := shown
    have further := declares.array size
    rw [← lexemes_array _ _ (isWord_toString _)] at further
    exact ih readable _ _ _ further fun _ => rfl
  | function name result arguments attributes _ ihResult ihArguments =>
    intro q inner marks suffixes shown declares tight
    obtain rfl := tight rfl
    obtain rfl : q = .none := shown
    obtain ⟨rfl, returned, taken, plain⟩ := readable
    obtain ⟨types, rfl, each⟩ := ihArguments taken
    have further := declares.function each attributes.variadic (attributeWords attributes)
    rw [← lexemes_functionDeclarator] at further
    have reads := ihResult returned _ _ _ further fun _ => rfl
    rwa [List.reverse_nil, List.nil_append, List.foldl_cons, Layer.around_function plain] at reads
  | qual type q ih =>
    intro inner marks suffixes declares tight
    exact ih readable.1 q inner marks suffixes readable.2 declares tight
  | noArguments => exact ⟨[], rfl, .nil⟩
  | consArgument name type defaultValue storage rest _ ihType ihRest =>
    obtain ⟨rfl, typed, rfl, rfl, others⟩ := readable
    obtain ⟨types, rfl, each⟩ := ihRest others
    have reads := ihType typed "" [] [] (lexemes_empty ▸ .nothing) fun _ => rfl
    exact ⟨type :: types, rfl, .cons (by simpa [print] using reads) each⟩
  | undefined | memberPointer | shapeless | declared | unknown => exact readable.elim
  | _ => trivial

/-- What a readable type prints is read back as the type. -/
theorem read_print {t : Tree .qualified} (readable : t.Readable)
    (spell : SymbolId → Option String) : read (t.print spell "") = t := by
  have reads : Reads (lexemes (t.print spell "")) t :=
    faithful_of_readable readable "" [] [] (lexemes_empty ▸ .nothing) fun _ => rfl
  obtain ⟨f, run, -, type, -⟩ := reads [] []
  rw [read, run, type]

end Tree

/-- Types that a store gave out and whose trees are readable are equal if they print alike. -/
theorem Store.eq_of_typeText_eq {s : Store} {spell : SymbolId → Option String} {a b : QualType}
    (grounded : (s.unfold .qualified a).Grounded s) (grounded' : (s.unfold .qualified b).Grounded s)
    (readable : (s.qualTree a).Readable) (readable' : (s.qualTree b).Readable)
    (same : s.typeText spell a = s.typeText spell b) : a = b := by
  have trees : s.qualTree a = s.qualTree b := by
    rw [← Tree.read_print readable spell, ← Tree.read_print readable' spell]
    exact congrArg Tree.read same
  apply eq_of_tree_unfold grounded grounded'
  rw [tree_unfold, tree_unfold]
  exact trees

/-- The tree of `const T *(*const)(int, ...)`. -/
def callback : Tree .qualified :=
  .qual (.pointer (.qual (.function .noName
    (.qual (.pointer (.qual (.named (.identifier "T")) (.single .const))) .none)
    (.unnamed [.qual (.integer .int) .none]) { variadic := true }) .none)) (.single .const)

theorem readable_callback : callback.Readable := by
  have called : IsWord "T" ∧ "T" ∉ reservedWords := by decide
  simp [callback, Tree.Readable, Tree.unnamed, Tree.Shows, Qualifiers.Within, shownQualifiers,
    called]

def firstCallback : QualType × Store := callback.intern .initial

def nextCallback : QualType × Store := callback.intern firstCallback.2

theorem Store.eq_of_typeText_eq_callback :
    nextCallback.2.typeText (fun _ => none) firstCallback.1 = "const T *(*const)(int, ...)" ∧
      nextCallback.2.typeText (fun _ => none) nextCallback.1 = "const T *(*const)(int, ...)" ∧
      firstCallback.1 = nextCallback.1 := by
  have plain : callback.Plain := by simp [callback, Tree.Plain, Tree.unnamed]
  have entered (s : Store) : s.Extends (callback.intern s).2 ∧
      (callback.intern s).2.Denotes True callback (callback.intern s).1 :=
    yields_intern callback plain s s (.refl s)
  obtain ⟨-, first⟩ := entered .initial
  obtain ⟨grows, next⟩ := entered firstCallback.2
  have first : nextCallback.2.Denotes True callback firstCallback.1 := first.extend grows
  have text {t : QualType} (d : nextCallback.2.Denotes True callback t) :
      nextCallback.2.typeText (fun _ => none) t = "const T *(*const)(int, ...)" := by
    have tree : nextCallback.2.qualTree t = callback := d.reads
    rw [typeText, declarationText, tree]
    decide
  have readable {t : QualType} (d : nextCallback.2.Denotes True callback t) :
      (nextCallback.2.qualTree t).Readable := by
    have tree : nextCallback.2.qualTree t = callback := d.reads
    exact tree ▸ readable_callback
  exact ⟨text first, text next, eq_of_typeText_eq (first.grounded trivial) (next.grounded trivial)
    (readable first) (readable next) ((text first).trans (text next).symm)⟩

end Respell

import Respell.Proofs.FullNames

/-! How a type is printed around what it declares. A type that is printed around a text puts that
text, unless it is empty, between two texts that do not depend on it, so different texts inside stay
different outside. Main statements: this is so for every type (`Tree.printsAround`), and qualifiers
of a position are either left out by the type or can be told from its text
(`Tree.print_union_iff`). -/
namespace Respell

/-- A text that is not empty is put between two texts that do not depend on it. -/
def Around (f : String → String) : Prop :=
  ∃ pre suf : String, ∀ inner : String, inner.isEmpty = false → f inner = pre ++ inner ++ suf

namespace Around

variable {f g : String → String}

theorem isEmpty_eq_false (around : Around f) {inner : String} (some_ : inner.isEmpty = false) :
    (f inner).isEmpty = false := by
  obtain ⟨pre, suf, between⟩ := around
  simp [between inner some_, isEmpty_append, some_]

theorem comp (outer : Around f) (inside : Around g) : Around fun inner => f (g inner) := by
  obtain ⟨pre, suf, between⟩ := id outer
  obtain ⟨pre', suf', between'⟩ := id inside
  refine ⟨pre ++ pre', suf' ++ suf, fun inner some_ => ?_⟩
  calc f (g inner)
      = pre ++ g inner ++ suf := between _ (inside.isEmpty_eq_false some_)
    _ = pre ++ pre' ++ inner ++ (suf' ++ suf) := by
      simp only [between' inner some_, String.append_assoc]

theorem eq_iff (around : Around f) {a b : String} (filled : a.isEmpty = false)
    (filled' : b.isEmpty = false) : f a = f b ↔ a = b := by
  obtain ⟨pre, suf, between⟩ := around
  rw [between a filled, between b filled', String.append_left_inj, String.append_right_inj]

end Around

/-! ### Declarators -/

/-- The words with a blank behind each, as they stand ahead of a text. -/
def leading (words : List String) : String :=
  String.join ((words.filter fun word => !word.isEmpty).map (· ++ " "))

theorem leading_append (words more : List String) :
    leading (words ++ more) = leading words ++ leading more := by
  simp [leading, String.join_append]

theorem joinWords_ahead (words : List String) {inner : String} (some_ : inner.isEmpty = false) :
    joinWords (words ++ [inner]) = leading words ++ inner := by
  have last : [inner].filter (fun word => !word.isEmpty) = [inner] := by simp [some_]
  rw [joinWords, leading, List.filter_append, last]
  induction words.filter fun word => !word.isEmpty with
  | nil => simp
  | cons word rest ih =>
    cases rest with
    | nil => simp [String.intercalate_cons_cons]
    | cons next rest =>
      simp only [List.cons_append, List.map_cons, String.join_cons] at ih ⊢
      rw [String.intercalate_cons_cons, ih]
      simp only [String.append_assoc]

theorem pointerDeclarator_ahead (mark : String) (q : Qualifiers) {inner : String}
    (some_ : inner.isEmpty = false) :
    pointerDeclarator mark q inner = mark ++ leading q.cvWords ++ inner := by
  have blank : " ".isEmpty = false := rfl
  simp only [pointerDeclarator, leading, Qualifiers.cvWords, some_]
  cases q.contains .const <;> cases q.contains .volatile <;>
    simp [String.intercalate_cons_cons, String.append_assoc]

theorem around_pointerDeclarator (mark : String) (q : Qualifiers) :
    Around (pointerDeclarator mark q) :=
  ⟨mark ++ leading q.cvWords, "", fun inner some_ => by
    rw [pointerDeclarator_ahead mark q some_, String.append_empty]⟩

theorem around_joinWords (words : List String) : Around fun inner => joinWords (words ++ [inner]) :=
  ⟨leading words, "", fun _ some_ => (joinWords_ahead words some_).trans String.append_empty.symm⟩

theorem specifierText_ahead (q : Qualifiers) (spelling : String) {inner : String}
    (some_ : inner.isEmpty = false) :
    specifierText q spelling inner =
      leading q.cvWords ++ (leading (q.signWords ++ [spelling]) ++ inner) := by
  have words : q.cvWords ++ q.signWords ++ [spelling, inner] =
      q.cvWords ++ (q.signWords ++ [spelling]) ++ [inner] := by simp
  rw [specifierText, words, joinWords_ahead _ some_, leading_append, String.append_assoc]

theorem around_specifierText (q : Qualifiers) (spelling : String) :
    Around (specifierText q spelling) :=
  ⟨leading q.cvWords ++ leading (q.signWords ++ [spelling]), "", fun inner some_ => by
    rw [specifierText_ahead q spelling some_, String.append_empty, String.append_assoc]⟩

theorem around_functionDeclarator (name : String) (arguments : List String)
    (attributes : FunctionAttributes) :
    Around (functionDeclarator name arguments attributes) := by
  refine ⟨"", functionDeclarator "" arguments attributes "", fun inner some_ => ?_⟩
  simp [functionDeclarator, some_, String.append_assoc]

namespace Tree

variable {spell : SymbolId → Option String} {p : Part}

theorem around_parenthesize (element : Tree .qualified) : Around element.parenthesize := by
  by_cases tight : element.bindsTighter = true
  · exact ⟨"(", ")", fun inner _ => by rw [parenthesize, if_pos tight]⟩
  · exact ⟨"", "", fun inner _ => by simp [parenthesize, if_neg tight]⟩

/-- Types are printed around a text, whatever the qualifiers of their position; names and lists are
not printed around anything. -/
def PrintsAround : (p : Part) → Printed p → Prop
  | .type, f => ∀ q : Qualifiers, Around (f q)
  | .qualified, f => Around f
  | _, _ => True

theorem printsAround (spell : SymbolId → Option String) (t : Tree p) :
    PrintsAround p (t.print spell) := by
  induction t with
  | undefined | void | integer | float | named | declared =>
    exact fun q => around_specifierText q _
  | shapeless => exact fun _ => around_joinWords ["<unknown function>"]
  | unknown => exact fun _ => around_joinWords ["<unknown type>"]
  | pointer element ih =>
    exact fun q => ih.comp ((around_parenthesize element).comp (around_pointerDeclarator "*" q))
  | reference element ih =>
    have mark : Around fun inner => "&" ++ inner := ⟨"&", "", fun inner _ => by simp⟩
    exact fun _ => ih.comp ((around_parenthesize element).comp mark)
  | array element size ih =>
    have bracket : Around fun inner => inner ++ "[" ++ toString size.toNat ++ "]" :=
      ⟨"", "[" ++ toString size.toNat ++ "]", fun inner _ => by simp [String.append_assoc]⟩
    exact fun _ => ih.comp bracket
  | memberPointer owner element _ ih =>
    exact fun q => ih.comp ((around_parenthesize element).comp (around_pointerDeclarator _ q))
  | function _ _ _ _ _ ih => exact fun _ => ih.comp (around_functionDeclarator ..)
  | qual type q ih => exact ih q
  | identifier | qualified | template | destructor | operator | conversion | selector => trivial
  | unknownName | noName | justName | noTypes | consType | noNames | consName => trivial
  | noArguments | consArgument => trivial

/-! ### Qualifiers of a position -/

/-- Whether the text of a type shows the qualifiers of its position. -/
def showsQualifiers : Tree .type → Bool
  | reference _ | array _ _ | function .. | shapeless _ | unknown _ => false
  | _ => true

end Tree

namespace Qualifiers

/-- No other words than `const` and `volatile`. -/
def OnlyCv (q : Qualifiers) : Prop := ∀ c, q.contains c = true → c = .const ∨ c = .volatile

variable {q more : Qualifiers}

theorem OnlyCv.signWords_union (cv : more.OnlyCv) (q : Qualifiers) :
    (q ∪ more).signWords = q.signWords := by
  have unsigned : more.contains .unsigned = false :=
    Bool.eq_false_iff.mpr fun mem => by rcases cv _ mem with h | h <;> cases h
  have signed : more.contains .signed = false :=
    Bool.eq_false_iff.mpr fun mem => by rcases cv _ mem with h | h <;> cases h
  simp [signWords, unsigned, signed]

/-- The words ahead of a text tell the set of `const` and `volatile`. -/
theorem leading_cvWords_inj {a b : Qualifiers} :
    leading a.cvWords = leading b.cvWords ↔
      a.contains .const = b.contains .const ∧ a.contains .volatile = b.contains .volatile := by
  unfold cvWords
  cases a.contains .const <;> cases a.contains .volatile <;> cases b.contains .const <;>
    cases b.contains .volatile <;> decide

theorem OnlyCv.leading_union_iff (cv : more.OnlyCv) (q : Qualifiers) :
    leading (q ∪ more).cvWords = leading q.cvWords ↔
      ∀ c, more.contains c = true → q.contains c = true := by
  rw [leading_cvWords_inj, contains_union, contains_union, Bool.or_eq_left_iff_imp,
    Bool.or_eq_left_iff_imp]
  constructor
  · rintro ⟨const, volatile⟩ c mem
    rcases cv c mem with rfl | rfl
    · exact const mem
    · exact volatile mem
  · exact fun each => ⟨each .const, each .volatile⟩

end Qualifiers

namespace Tree

variable {spell : SymbolId → Option String} {q more : Qualifiers} {inner : String}

theorem print_of_not_showsQualifiers {t : Tree .type} (hidden : t.showsQualifiers = false)
    (q q' : Qualifiers) (inner : String) : t.print spell q inner = t.print spell q' inner := by
  cases t <;> first | rfl | cases hidden

theorem specifierText_union_iff (cv : more.OnlyCv) (spelling : String)
    (some_ : inner.isEmpty = false) :
    specifierText (q ∪ more) spelling inner = specifierText q spelling inner ↔
      ∀ c, more.contains c = true → q.contains c = true := by
  rw [specifierText_ahead _ _ some_, specifierText_ahead _ _ some_, cv.signWords_union,
    String.append_left_inj, cv.leading_union_iff]

theorem pointerDeclarator_union_iff (cv : more.OnlyCv) (mark : String)
    (some_ : inner.isEmpty = false) :
    pointerDeclarator mark (q ∪ more) inner = pointerDeclarator mark q inner ↔
      ∀ c, more.contains c = true → q.contains c = true := by
  rw [pointerDeclarator_ahead _ _ some_, pointerDeclarator_ahead _ _ some_, String.append_left_inj,
    String.append_right_inj, cv.leading_union_iff]

/-- Around a text, the qualifiers that a type shows at its position can be told from the whole. -/
theorem print_union_iff {t : Tree .type} (cv : more.OnlyCv) (some_ : inner.isEmpty = false) :
    t.print spell (q ∪ more) inner = t.print spell q inner ↔
      t.showsQualifiers = false ∨ ∀ c, more.contains c = true → q.contains c = true := by
  by_cases hidden : t.showsQualifiers = false
  · exact ⟨fun _ => .inl hidden, fun _ => print_of_not_showsQualifiers hidden ..⟩
  rw [or_iff_right hidden]
  cases t with
  | reference | array | function | shapeless | unknown => exact absurd rfl hidden
  | undefined | void | integer | float | named | declared =>
    exact specifierText_union_iff cv _ some_
  | pointer element =>
    have wrapped := (printsAround spell element).comp (around_parenthesize element)
    rw [← pointerDeclarator_union_iff cv "*" some_]
    exact wrapped.eq_iff ((around_pointerDeclarator "*" _).isEmpty_eq_false some_)
      ((around_pointerDeclarator "*" _).isEmpty_eq_false some_)
  | memberPointer owner element =>
    have wrapped := (printsAround spell element).comp (around_parenthesize element)
    rw [← pointerDeclarator_union_iff cv (owner.print spell ++ "::*") some_]
    exact wrapped.eq_iff ((around_pointerDeclarator _ _).isEmpty_eq_false some_)
      ((around_pointerDeclarator _ _).isEmpty_eq_false some_)

end Tree
end Respell

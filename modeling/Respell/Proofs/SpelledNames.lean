import Respell.Proofs.SpelledPaths

/-! What a spelled name is, exactly. A text is split at its separators from the left, and its
parts make a name when something is left of each of them without blanks and without a leading
tilde. Main statements: there is one way to split a text (`Text.splitsInto_iff`), a part of
which nothing is left is all that can be wrong (`spelledName_eq_error`), and a spelled name
prints as its cleaned parts, which spell the same name again where none of them has a colon in
it (`spelledName_exact`). -/
namespace Respell

namespace Text

/-! ### Splitting from the left -/

/-- The parts of a text between its separators. A separator is taken where it first occurs, and what
was taken is not looked at again. -/
inductive SplitsInto : List Char → List (List Char) → Prop
  | last {part : List Char} (single : ¬ [':', ':'] <:+: part) : SplitsInto part [part]
  | more {part rest : List Char} {parts : List (List Char)}
      (first : ¬ [':', ':'] <:+: part ++ [':']) (onward : SplitsInto rest parts) :
      SplitsInto (part ++ ':' :: ':' :: rest) (part :: parts)

theorem splitsInto_splitPath (cs : List Char) : SplitsInto cs (splitPath cs) := by
  fun_induction splitPath cs with
  | case1 => exact .last (by simp)
  | case2 rest ih =>
    have nothing : ¬ [':', ':'] <:+: [] ++ [':'] := by decide
    exact .more nothing ih
  | case3 c rest _ none => exact absurd none (splitPath_ne_nil rest)
  | case4 c rest apart first others split ih =>
    -- The character goes in front of the first part, where it begins no separator.
    rw [split] at ih
    cases ih with
    | last single => exact .last (not_infix_cons.mpr ⟨apart, single⟩)
    | more single onward =>
      have longer : ¬ [':', ':'] <:+: (c :: first) ++ [':'] :=
        not_infix_cons.mpr ⟨apart_append apart, single⟩
      exact .more longer onward

theorem splitsInto_iff {cs : List Char} {parts : List (List Char)} :
    SplitsInto cs parts ↔ parts = splitPath cs := by
  constructor
  · intro split
    induction split with
    | last single => exact (splitPath_eq_singleton single).symm
    | more first _ ih => rw [splitPath_append_separator first, ih]
  · rintro rfl
    exact splitsInto_splitPath cs

/-! ### Cleaning -/

/-- What is left of a part when it is trimmed, freed of one tilde and trimmed again. -/
def core (part : List Char) : List Char := trim (withoutTilde (trim part))

/-- The part without blanks at its ends, nor behind the tilde that it may start with. -/
def cleaned (part : List Char) : List Char :=
  match trim part with
  | '~' :: text => '~' :: trim text
  | text => text

/-- The cleaned parts, written as one text. -/
def respelled (parts : List (List Char)) : String :=
  joinPath (parts.map fun part => String.ofList (cleaned part))

theorem cleaned_of_tilde {part text : List Char} (shape : trim part = '~' :: text) :
    cleaned part = '~' :: trim text := by
  simp only [cleaned, shape]

theorem cleaned_of_no_tilde {part : List Char} (shape : ∀ text, trim part = '~' :: text → False) :
    cleaned part = trim part := by
  unfold cleaned
  split <;> rename_i tilde
  · exact (shape _ tilde).elim
  · rfl

theorem trim_cons_of_not_blank {c : Char} (solid : isBlank c = false) (cs : List Char) :
    trim (c :: cs) = c :: trimRight cs := by
  have left : trimLeft (c :: cs) = c :: cs := List.dropWhile_cons_of_neg (by simp [solid])
  rw [trim, left, trimRight, List.reverse_cons, List.dropWhile_append]
  split <;> rename_i empty
  · have none : trimRight cs = [] := by simpa [trimRight] using empty
    rw [List.dropWhile_cons_of_neg (by simp [solid]), none]
    rfl
  · rw [List.reverse_append]
    rfl

theorem trim_cleaned (part : List Char) : trim (cleaned part) = cleaned part := by
  by_cases tilde : ∃ text, trim part = '~' :: text
  · obtain ⟨text, shape⟩ := tilde
    have right : trimRight (trim text) = trim text :=
      List.rdropWhile_idempotent isBlank (trimLeft text)
    rw [cleaned_of_tilde shape, trim_cons_of_not_blank (by decide), right]
  · rw [cleaned_of_no_tilde (not_exists.mp tilde), trim_trim]

theorem core_cleaned (part : List Char) : core (cleaned part) = core part := by
  by_cases tilde : ∃ text, trim part = '~' :: text
  · obtain ⟨text, shape⟩ := tilde
    rw [core, trim_cleaned, cleaned_of_tilde shape, core, shape, withoutTilde, withoutTilde,
      trim_trim]
  · rw [core, trim_cleaned, cleaned_of_no_tilde (not_exists.mp tilde), core]

theorem splitPath_respelled {parts : List (List Char)} (filled : parts ≠ [])
    (single : ∀ part ∈ parts, ':' ∉ cleaned part) :
    splitPath (respelled parts).toList = parts.map cleaned := by
  rw [respelled, splitPath_joinPath]
  · simp [Function.comp_def]
  · simpa using filled
  · simpa using single

end Text

/-! ### What is refused -/

theorem component_eq_error {text : List Char} (nothing : Text.trim text = []) :
    component text = .error .empty := by
  simp [component, nothing]

theorem spelledPart_eq_error {part : List Char} (nothing : Text.core part = []) :
    spelledPart part = .error .empty := by
  unfold spelledPart
  split <;> rename_i shape
  · rw [Text.core, shape, Text.withoutTilde] at nothing
    rw [component_eq_error nothing]
    rfl
  · have same : Text.withoutTilde (Text.trim part) = Text.trim part := by
      rw [Text.withoutTilde]
      exact shape
    rw [Text.core, same] at nothing
    rw [component_eq_error nothing]
    rfl

/-- Reading on from a part fails when nothing is left of that part or of a later one. -/
theorem qualifyAll_eq_error {part : List Char} {rest : List (List Char)}
    (single : ∀ part' ∈ part :: rest, Text.hasSeparator part' = false)
    (nothing : ∃ part' ∈ part :: rest, Text.core part' = []) (outer : Tree .name → Tree .name) :
    (do
      let tree ← spelledPart part
      qualifyAll (outer tree) rest) = .error .empty := by
  induction rest generalizing part outer with
  | nil =>
    have empty : Text.core part = [] := by simpa using nothing
    rw [spelledPart_eq_error empty]
    rfl
  | cons next rest ih =>
    obtain ⟨here, later⟩ := List.forall_mem_cons.mp single
    by_cases empty : Text.core part = []
    · rw [spelledPart_eq_error empty]
      rfl
    · rw [spelledPart_eq_ok here empty]
      exact ih later (by simpa [empty] using nothing) (Tree.qualified (outer (pieceTree part)))

theorem spelledName_eq_error {text : List Char}
    (nothing : ∃ part ∈ Text.splitPath text, Text.core part = []) :
    spelledName text = .error .empty := by
  have single : ∀ part ∈ Text.splitPath text, Text.hasSeparator part = false :=
    fun part mem => Text.hasSeparator_of_mem_splitPath mem
  rw [spelledName]
  split <;> rename_i split
  · rfl
  · rw [split] at nothing single
    exact qualifyAll_eq_error single nothing id

/-! ### What is accepted -/

theorem print_pieceTree (spell : SymbolId → Option String) (part : List Char) :
    (pieceTree part).print spell = String.ofList (Text.cleaned part) := by
  by_cases tilde : ∃ text, Text.trim part = '~' :: text
  · obtain ⟨text, shape⟩ := tilde
    rw [pieceTree_of_tilde shape, Text.cleaned_of_tilde shape, String.ofList_cons]
    rfl
  · have plain := not_exists.mp tilde
    rw [pieceTree_of_no_tilde plain, Text.cleaned_of_no_tilde plain]
    rfl

theorem pieceTree_cleaned (part : List Char) : pieceTree (Text.cleaned part) = pieceTree part := by
  by_cases tilde : ∃ text, Text.trim part = '~' :: text
  · obtain ⟨text, shape⟩ := tilde
    have again := (Text.trim_cleaned part).trans (Text.cleaned_of_tilde shape)
    rw [pieceTree_of_tilde again, pieceTree_of_tilde shape, Text.trim_trim]
  · have plain := not_exists.mp tilde
    have again := (Text.trim_cleaned part).trans (Text.cleaned_of_no_tilde plain)
    rw [pieceTree_of_no_tilde plain, pieceTree_of_no_tilde (again ▸ plain), again]

theorem pathTree_cleaned (parts : List (List Char)) :
    pathTree (parts.map Text.cleaned) = pathTree parts := by
  cases parts with
  | nil => rfl
  | cons first rest => simp only [List.map_cons, pathTree, List.foldl_map, pieceTree_cleaned]

theorem nameText_pathTree {s : Store} {parts : List (List Char)} (filled : parts ≠ [])
    {n : NameId} (reads : s.nameTree n = pathTree parts) (spell : SymbolId → Option String) :
    s.nameText spell n = Text.respelled parts := by
  rw [Store.nameText, reads, print_pathTree spell filled, Text.respelled]
  simp only [print_pieceTree]

theorem meaning_respelled {parts : List (List Char)} (filled : parts ≠ [])
    (named : ∀ part ∈ parts, Text.core part ≠ [])
    (single : ∀ part ∈ parts, ':' ∉ Text.cleaned part) :
    (Expr.spelled (Text.respelled parts)).meaning = .ok (pathTree parts) := by
  have split := Text.splitPath_respelled filled single
  have kept : ∀ part ∈ Text.splitPath (Text.respelled parts).toList, Text.core part ≠ [] := by
    rw [split, List.forall_mem_map]
    intro part mem
    rw [Text.core_cleaned]
    exact named part mem
  rw [Expr.meaning, mapError_eq_ok, spelledName_eq_ok kept, split, pathTree_cleaned]

/-- A text has parts in one way only. It spells a name when something is left of every part, and is
refused for an empty component otherwise. The name is the path of the parts, it prints as the
cleaned parts, and where none of these has a colon in it, their text comes to the same handle later
on. -/
theorem spelledName_exact (text : String) :
    ∃ parts, (∀ parts', Text.SplitsInto text.toList parts' ↔ parts' = parts) ∧
      (Succeeds (Expr.spelled text).meaning ↔ ∀ part ∈ parts, Text.core part ≠ []) ∧
      (∀ error, (Expr.spelled text).meaning = .error error → error = .spelledName text .empty) ∧
      ∀ tree, (Expr.spelled text).meaning = .ok tree → tree = pathTree parts ∧
        ∀ s : Store,
          (∀ spell, (tree.intern s).2.nameText spell (tree.intern s).1 = Text.respelled parts) ∧
          ((∀ part ∈ parts, ':' ∉ Text.cleaned part) →
            ∃ again, (Expr.spelled (Text.respelled parts)).meaning = .ok again ∧
              ∀ t, (tree.intern s).2.Extends t → again.intern t = ((tree.intern s).1, t)) := by
  have filled := Text.splitPath_ne_nil text.toList
  refine ⟨Text.splitPath text.toList, fun parts' => Text.splitsInto_iff, ?_, ?_, ?_⟩
  · exact succeeds_mapError.trans succeeds_spelledName
  · intro error refused
    by_cases nothing : ∃ part ∈ Text.splitPath text.toList, Text.core part = []
    · rw [Expr.meaning, spelledName_eq_error nothing] at refused
      cases refused
      rfl
    · have named : ∀ part ∈ Text.splitPath text.toList, Text.core part ≠ [] :=
        fun part mem empty => nothing ⟨part, mem, empty⟩
      rw [Expr.meaning, spelledName_eq_ok named] at refused
      cases refused
  · intro tree spelled
    have named := succeeds_spelledName.mp ⟨tree, mapError_eq_ok.mp spelled⟩
    obtain rfl : tree = pathTree (Text.splitPath text.toList) :=
      Except.ok.inj ((mapError_eq_ok.mp spelled).symm.trans (spelledName_eq_ok named))
    refine ⟨rfl, fun s => ?_⟩
    have interned := (@Store.yields_intern True _ _ (Expr.plain_of_meaning spelled) s s (.refl s)).2
    refine ⟨nameText_pathTree filled interned.reads, fun single => ?_⟩
    exact ⟨_, meaning_respelled filled named single, fun t later => (interned.extend later).found⟩

theorem spelledName_exact_destructor :
    ∃ tree, (Expr.spelled " a ::\t~ b").meaning = .ok tree ∧
      tree = .qualified (.identifier "a") (.destructor "b") ∧
      ∀ s : Store, (∀ spell, (tree.intern s).2.nameText spell (tree.intern s).1 = "a::~b") ∧
        ∃ again, (Expr.spelled "a::~b").meaning = .ok again ∧
          ∀ t, (tree.intern s).2.Extends t → again.intern t = ((tree.intern s).1, t) := by
  obtain ⟨parts, split, accepted, -, exact_⟩ := spelledName_exact " a ::\t~ b"
  obtain rfl : [" a ".toList, "\t~ b".toList] = parts :=
    (split _).mp (Text.splitsInto_iff.mpr (by decide))
  obtain ⟨tree, spelled⟩ := accepted.mpr (by decide)
  obtain ⟨shape, handles⟩ := exact_ tree spelled
  have text : Text.respelled [" a ".toList, "\t~ b".toList] = "a::~b" := by decide
  rw [text] at handles
  exact ⟨tree, spelled, shape.trans (by decide), fun s =>
    ⟨(handles s).1, (handles s).2 (by decide)⟩⟩

end Respell

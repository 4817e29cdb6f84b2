import Mathlib.Data.List.Basic
import Respell.Tree.Print

/-! Printed text as words and marks. The blanks that printing puts between words tell nothing more,
so a text is read by its lexemes. Main statements: texts that are put together at a blank or a mark
have the lexemes of both (`lexemes_append`), and so the specifiers and declarators that printing
builds have the lexemes of their parts (`lexemes_joinWords`, `lexemes_pointerDeclarator`,
`lexemes_array`, `lexemes_functionDeclarator`). -/
namespace Respell

inductive Lexeme
  | word (text : String)
  | star | amper | comma
  | openParen | closeParen | openBracket | closeBracket
  deriving DecidableEq

def Lexeme.ofMark? : Char → Option Lexeme
  | '*' => some .star
  | '&' => some .amper
  | ',' => some .comma
  | '(' => some .openParen
  | ')' => some .closeParen
  | '[' => some .openBracket
  | ']' => some .closeBracket
  | _ => none

def endsWord (c : Char) : Bool := c == ' ' || (Lexeme.ofMark? c).isSome

/-- A word is not empty and has no blank and no mark of declarators in it. Letters, digits and
underscores make words, in any script. -/
def IsWord (text : String) : Prop := text ≠ "" ∧ ∀ c ∈ text.toList, endsWord c = false

instance (text : String) : Decidable (IsWord text) :=
  decidable_of_iff (text ≠ "" ∧ text.toList.all (fun c => !endsWord c) = true) (by simp [IsWord])

def wordLexeme (pending : List Char) : List Lexeme :=
  if pending = [] then [] else [.word (String.ofList pending)]

/-- The lexemes of a text that comes after the beginning of a word. -/
def lexemesAfter (pending : List Char) : List Char → List Lexeme
  | [] => wordLexeme pending
  | c :: rest =>
    if endsWord c then wordLexeme pending ++ (Lexeme.ofMark? c).toList ++ lexemesAfter [] rest
    else lexemesAfter (pending ++ [c]) rest

def lexemes (text : String) : List Lexeme := lexemesAfter [] text.toList

/-! ### Texts put together -/

theorem lexemesAfter_append {front back : List Char} (ends : ∀ c ∈ back.head?, endsWord c = true)
    (pending : List Char) :
    lexemesAfter pending (front ++ back) = lexemesAfter pending front ++ lexemesAfter [] back := by
  induction front generalizing pending with
  | nil =>
    cases back with
    | nil => simp [lexemesAfter, wordLexeme]
    | cons c rest => simp [lexemesAfter, wordLexeme, ends c rfl]
  | cons c rest ih =>
    simp only [List.cons_append, lexemesAfter]
    split
    · rw [ih, List.append_assoc, List.append_assoc, List.append_assoc]
    · exact ih _

theorem lexemes_append {front back : String} (ends : ∀ c ∈ back.toList.head?, endsWord c = true) :
    lexemes (front ++ back) = lexemes front ++ lexemes back := by
  rw [lexemes, String.toList_append, lexemesAfter_append ends]
  rfl

theorem lexemes_mark {mark : String} {c : Char} {lexeme : Lexeme} (only : mark.toList = [c])
    (is : Lexeme.ofMark? c = some lexeme) (text : String) :
    lexemes (mark ++ text) = lexeme :: lexemes text := by
  rw [lexemes, String.toList_append, only]
  simp [lexemesAfter, endsWord, is, wordLexeme, lexemes]

theorem lexemes_mark_between {mark : String} {c : Char} {lexeme : Lexeme} (only : mark.toList = [c])
    (is : Lexeme.ofMark? c = some lexeme) (front back : String) :
    lexemes (front ++ mark ++ back) = lexemes front ++ lexeme :: lexemes back := by
  rw [String.append_assoc, lexemes_append (by simp [only, endsWord, is]), lexemes_mark only is]

theorem lexemes_blank (text : String) : lexemes (" " ++ text) = lexemes text := by
  rw [lexemes, String.toList_append]
  simp [lexemesAfter, endsWord, wordLexeme, lexemes, Lexeme.ofMark?]

@[simp] theorem lexemes_empty : lexemes "" = [] := by simp [lexemes, lexemesAfter, wordLexeme]

theorem lexemesAfter_of_forall {text : List Char} (inside : ∀ c ∈ text, endsWord c = false)
    (pending : List Char) : lexemesAfter pending text = wordLexeme (pending ++ text) := by
  induction text generalizing pending with
  | nil => simp [lexemesAfter]
  | cons c rest ih =>
    rw [lexemesAfter, inside c (by simp), if_neg Bool.false_ne_true,
      ih fun d hd => inside d (by simp [hd])]
    simp

theorem lexemes_of_isWord {text : String} (word : IsWord text) : lexemes text = [.word text] := by
  have whole : text.toList ≠ [] := by simpa using word.1
  rw [lexemes, lexemesAfter_of_forall word.2, List.nil_append, wordLexeme, if_neg whole,
    String.ofList_toList]

/-! ### What printing puts together -/

theorem lexemes_blank_between (front back : String) :
    lexemes (front ++ " " ++ back) = lexemes front ++ lexemes back := by
  rw [String.append_assoc, lexemes_append (by simp [endsWord]), lexemes_blank]

theorem lexemes_intercalate_blank (words : List String) :
    lexemes (" ".intercalate words) = words.flatMap lexemes := by
  induction words with
  | nil => simp
  | cons word rest ih =>
    cases rest with
    | nil => simp
    | cons next rest =>
      rw [String.intercalate_cons_cons, lexemes_blank_between, ih]
      simp

theorem lexemes_joinWords (words : List String) :
    lexemes (joinWords words) = words.flatMap lexemes := by
  rw [joinWords, lexemes_intercalate_blank]
  induction words with
  | nil => rfl
  | cons word rest ih =>
    by_cases empty : word = "" <;> simp [empty, ih]

theorem lexemes_comma_between (front back : String) :
    lexemes (front ++ ", " ++ back) = lexemes front ++ .comma :: lexemes back := by
  have separator : ", " ++ back = "," ++ (" " ++ back) := by
    rw [← String.append_assoc]
    rfl
  rw [String.append_assoc, separator, ← String.append_assoc, lexemes_mark_between rfl rfl,
    lexemes_blank]

theorem lexemes_intercalate_comma (texts : List String) :
    lexemes (", ".intercalate texts) = [.comma].intercalate (texts.map lexemes) := by
  induction texts with
  | nil => simp
  | cons text rest ih =>
    cases rest with
    | nil => simp
    | cons next rest =>
      rw [String.intercalate_cons_cons, lexemes_comma_between, ih]
      simp [List.intercalate_cons_cons]

theorem flatMap_lexemes {words : List String} (each : ∀ word ∈ words, IsWord word) :
    words.flatMap lexemes = words.map .word := by
  induction words with
  | nil => rfl
  | cons word rest ih =>
    rw [List.flatMap_cons, lexemes_of_isWord (each word (by simp)),
      ih fun w hw => each w (by simp [hw])]
    rfl

theorem mem_of_endsWord {c : Char} (ends : endsWord c = true) :
    c ∈ [' ', '*', '&', ',', '(', ')', '[', ']'] := by
  simp only [endsWord, Bool.or_eq_true, beq_iff_eq] at ends
  rcases ends with rfl | mark
  · simp
  · unfold Lexeme.ofMark? at mark
    split at mark <;> simp_all

theorem isWord_toString (n : Nat) : IsWord (toString n) := by
  refine ⟨Nat.repr_ne_empty, ?_⟩
  intro c hc
  rw [Nat.toString_eq_ofList_toDigits, String.toList_ofList] at hc
  have digit := Nat.isDigit_of_mem_toDigits (by omega) (by omega) hc
  by_contra ends
  have mark := mem_of_endsWord (Bool.not_eq_false _ ▸ ends)
  simp only [List.mem_cons, List.not_mem_nil, or_false] at mark
  rcases mark with rfl | rfl | rfl | rfl | rfl | rfl | rfl | rfl <;> exact absurd digit (by decide)

namespace Qualifiers

variable {q : Qualifiers} {word : String}

theorem mem_cvWords : word ∈ q.cvWords ↔
    word = "const" ∧ q.contains .const = true ∨
      word = "volatile" ∧ q.contains .volatile = true := by
  simp [cvWords, and_comm]

theorem mem_signWords : word ∈ q.signWords ↔
    word = "unsigned" ∧ q.contains .unsigned = true ∨
      word = "signed" ∧ q.contains .signed = true ∧ q.contains .unsigned = false := by
  unfold signWords
  cases q.contains .unsigned <;> cases q.contains .signed <;> simp

theorem isWord_of_mem (mem : word ∈ q.cvWords ++ q.signWords) : IsWord word := by
  have each : ∀ word ∈ ["const", "volatile", "unsigned", "signed"], IsWord word := by decide
  rw [List.mem_append, mem_cvWords, mem_signWords] at mem
  rcases mem with (⟨rfl, -⟩ | ⟨rfl, -⟩) | ⟨rfl, -⟩ | ⟨rfl, -⟩ <;> exact each _ (by simp)

end Qualifiers

theorem lexemes_pointerDeclarator (q : Qualifiers) (inner : String) :
    lexemes (pointerDeclarator "*" q inner) = .star :: q.cvWords.map .word ++ lexemes inner := by
  have words : lexemes (" ".intercalate q.cvWords) = q.cvWords.map .word := by
    rw [lexemes_intercalate_blank,
      flatMap_lexemes fun _ mem => Qualifiers.isWord_of_mem (List.mem_append_left _ mem)]
  unfold pointerDeclarator
  rw [List.cons_append, ← words]
  dsimp only
  split
  · next empty =>
    rw [lexemes_mark rfl rfl, String.isEmpty_iff.mp empty, lexemes_empty, List.nil_append]
  split
  · next empty =>
    rw [lexemes_mark rfl rfl, String.isEmpty_iff.mp empty, lexemes_empty, List.append_nil]
  · rw [lexemes_blank_between, lexemes_mark rfl rfl, List.cons_append]

theorem lexemes_amper (inner : String) : lexemes ("&" ++ inner) = .amper :: lexemes inner :=
  lexemes_mark rfl rfl inner

theorem lexemes_array (inner size : String) (word : IsWord size) :
    lexemes (inner ++ "[" ++ size ++ "]") =
      lexemes inner ++ [.openBracket, .word size, .closeBracket] := by
  have closed : lexemes (inner ++ "[" ++ size ++ "]" ++ "") = _ := lexemes_mark_between rfl rfl _ _
  rw [String.append_empty] at closed
  rw [closed, lexemes_mark_between rfl rfl, lexemes_of_isWord word, lexemes_empty]
  simp

/-- The lexemes in the parentheses of a function. -/
def argumentLexemes (texts : List (List Lexeme)) (variadic : Bool) : List Lexeme :=
  [.comma].intercalate (texts ++ if variadic then [[.word "..."]] else [])

/-- The words after the parentheses of a function. -/
def attributeWords (attributes : FunctionAttributes) : List String :=
  (if attributes.const then ["const"] else []) ++
    (if attributes.volatile then ["volatile"] else [])

theorem lexemes_attribute {text : String} (word : String) (spaced : text = " " ++ word)
    (is : IsWord word) (front : String) (set : Bool) :
    lexemes (front ++ if set then text else "") =
      lexemes front ++ (if set then [word] else []).map .word := by
  cases set with
  | false => simp
  | true =>
    simp only [if_true, spaced]
    rw [← String.append_assoc, lexemes_blank_between, lexemes_of_isWord is]
    rfl

theorem lexemes_functionDeclarator (texts : List String) (attributes : FunctionAttributes)
    (inner : String) :
    lexemes (functionDeclarator "" texts attributes inner) =
      lexemes inner ++ .openParen :: argumentLexemes (texts.map lexemes) attributes.variadic ++
        .closeParen :: (attributeWords attributes).map .word := by
  have around : (if inner.isEmpty then "" else inner) = inner := by
    split
    · next empty => exact (String.isEmpty_iff.mp empty).symm
    · rfl
  have inside :
      lexemes (", ".intercalate (if attributes.variadic then texts ++ ["..."] else texts)) =
        argumentLexemes (texts.map lexemes) attributes.variadic := by
    have dots : lexemes "..." = [.word "..."] := lexemes_of_isWord (by decide)
    rw [lexemes_intercalate_comma, argumentLexemes]
    cases attributes.variadic <;> simp [dots]
  have closed (front : String) : lexemes (front ++ ")") = lexemes front ++ [.closeParen] := by
    rw [lexemes_append (by simp [endsWord, Lexeme.ofMark?])]
    rfl
  unfold functionDeclarator
  dsimp only
  have volatile : " volatile" = " " ++ "volatile" := rfl
  have const : " const" = " " ++ "const" := rfl
  rw [around, lexemes_attribute _ volatile (by decide), lexemes_attribute _ const (by decide),
    closed, lexemes_mark_between rfl rfl, inside, attributeWords, List.map_append]
  simp

end Respell

import Mathlib.Data.List.Forall2
import Respell.Proofs.Lexing

/-! Reading printed types. A reader goes over the lexemes of a text once, from left to right, and
keeps what it has read in every parenthesis and bracket that is open: specifiers, marks and
suffixes. Main statements: what the reader makes of a declarator of each kind, told by what it makes
of the declarator inside (`Declares.pointer`, `Declares.reference`, `Declares.group`,
`Declares.array`, `Declares.function`). -/
namespace Respell

/-- The qualifiers that printing shows somewhere. -/
def shownQualifiers : List Qualifier := [.const, .volatile, .signed, .unsigned]

def shownWords : List String := ["const", "volatile", "signed", "unsigned"]

/-! ### The reader -/

def Qualifiers.ofWords (words : List String) : Qualifiers :=
  .ofList (shownQualifiers.filter fun q => Vocabulary.word q ∈ words)

/-- Arguments that have only a type. -/
def Tree.unnamed : List (Tree .qualified) → Tree .arguments
  | [] => noArguments
  | type :: rest => consArgument noName type none .none (unnamed rest)

/-- What a declarator puts around the type that is declared so far. -/
inductive Layer
  | pointer (words : List String)
  | reference
  | array (size : UInt32)
  | function (arguments : List (Tree .qualified)) (variadic : Bool) (words : List String)

namespace Layer

def around (element : Tree .qualified) : Layer → Tree .qualified
  | pointer words => .qual (.pointer element) (.ofWords words)
  | reference => .qual (.reference element) .none
  | array size => .qual (.array element size) .none
  | function arguments variadic words =>
    .qual (.function .noName element (.unnamed arguments)
      { variadic := variadic, const := decide ("const" ∈ words),
        volatile := decide ("volatile" ∈ words) }) .none

def addWord (word : String) : Layer → Layer
  | pointer words => pointer (words ++ [word])
  | function arguments variadic words => function arguments variadic (words ++ [word])
  | layer => layer

end Layer

/-- The types that are written with words of their own. -/
def basicTypes : List (List String × Tree .type) :=
  [(["void"], .void), (["char"], .integer .char), (["wchar_t"], .integer .wideChar),
    (["char16_t"], .integer .char16), (["char32_t"], .integer .char32), (["bool"], .integer .bool),
    (["short"], .integer .short), (["int"], .integer .int), (["long"], .integer .long),
    (["long", "long"], .integer .longLong), (["float"], .float .float),
    (["double"], .float .double), (["long", "double"], .float .longDouble)]

def readSpecifiers (words : List String) : Tree .qualified :=
  let base := words.filter (· ∉ shownWords)
  .qual ((basicTypes.lookup base).getD (.named (.identifier (base.headD "")))) (.ofWords words)

/-- A type, a group in parentheses or a size in brackets that is being read. -/
structure Pending where
  /-- The arguments in front of it, within the same parentheses. -/
  arguments : List (Tree .qualified) := []
  words : List String := []
  /-- Pointer and reference marks, the last one first. -/
  marks : List Layer := []
  /-- What follows the marks, the last one first. -/
  suffixes : List Layer := []

namespace Pending

/-- What is declared around the specifiers, from the inside out. -/
def layers (f : Pending) : List Layer := f.marks.reverse ++ f.suffixes

def type (f : Pending) : Tree .qualified := f.layers.foldl Layer.around (readSpecifiers f.words)

/-- A word belongs to the last layer, or to the specifiers while there is none. -/
def addWord (f : Pending) (word : String) : Pending :=
  match f.suffixes, f.marks with
  | last :: before, _ => { f with suffixes := last.addWord word :: before }
  | [], last :: before => { f with marks := last.addWord word :: before }
  | [], [] => { f with words := f.words ++ [word] }

def addMark (f : Pending) (layer : Layer) : Pending := { f with marks := layer :: f.marks }

def addSuffix (f : Pending) (layer : Layer) : Pending := { f with suffixes := layer :: f.suffixes }

/-- Parentheses hold a group if they begin with a mark, and arguments otherwise. -/
def addParentheses (f inner : Pending) : Pending :=
  match inner.words, inner.marks with
  | [], [] => f.addSuffix (.function [] false [])
  | [], _ :: _ => { f with suffixes := inner.layers }
  | ["..."], _ => f.addSuffix (.function inner.arguments true [])
  | _, _ => f.addSuffix (.function (inner.arguments ++ [inner.type]) false [])

theorem addParentheses_of_words {f inner : Pending} (worded : inner.words ≠ [])
    (plain : inner.words ≠ ["..."]) : f.addParentheses inner =
      f.addSuffix (.function (inner.arguments ++ [inner.type]) false []) := by
  unfold addParentheses
  split
  · contradiction
  · contradiction
  · contradiction
  · rfl

def size (f : Pending) : UInt32 := .ofNat (Nat.ofDigitChars 10 (f.words.headD "").toList 0)

end Pending

/-- What is being read, and what stays open around it, the innermost first. -/
structure Reader where
  top : Pending := {}
  outer : List Pending := []

namespace Reader

def close (r : Reader) (add : Pending → Pending → Pending) : Reader :=
  match r.outer with
  | [] => r
  | f :: rest => ⟨add f r.top, rest⟩

def step (r : Reader) : Lexeme → Reader
  | .word text => { r with top := r.top.addWord text }
  | .star => { r with top := r.top.addMark (.pointer []) }
  | .amper => { r with top := r.top.addMark .reference }
  | .comma => { r with top := { arguments := r.top.arguments ++ [r.top.type] } }
  | .openParen | .openBracket => ⟨{}, r.top :: r.outer⟩
  | .closeParen => r.close .addParentheses
  | .closeBracket => r.close fun f inner => f.addSuffix (.array inner.size)

def run (r : Reader) (lexemes : List Lexeme) : Reader := lexemes.foldl step r

end Reader

/-- The type that a text spells, if printing can spell one so. -/
def Tree.read (text : String) : Tree .qualified := (Reader.run {} (lexemes text)).top.type

namespace Reader

@[simp] theorem run_nil (r : Reader) : r.run [] = r := rfl

@[simp] theorem run_cons (r : Reader) (lexeme : Lexeme) (rest : List Lexeme) :
    r.run (lexeme :: rest) = (r.step lexeme).run rest := rfl

@[simp] theorem run_append (r : Reader) (front back : List Lexeme) :
    r.run (front ++ back) = (r.run front).run back := List.foldl_append

variable {arguments : List (Tree .qualified)} {specifiers : List String}
  {marks suffixes : List Layer} {outer : List Pending}

/-- Words that are read in a row end up in one place. -/
theorem run_words (top : List String → Pending)
    (adds : ∀ old word, (top old).addWord word = top (old ++ [word])) (old words : List String) :
    run ⟨top old, outer⟩ (words.map .word) = ⟨top (old ++ words), outer⟩ := by
  induction words generalizing old with
  | nil => rw [List.append_nil, List.map_nil, run_nil]
  | cons word rest ih =>
    simp only [List.map_cons, run_cons, step, adds]
    rw [ih, List.append_assoc]
    rfl

theorem run_specifiers (words : List String) :
    run ⟨⟨arguments, specifiers, [], []⟩, outer⟩ (words.map .word) =
      ⟨⟨arguments, specifiers ++ words, [], []⟩, outer⟩ :=
  run_words (fun old => ⟨arguments, old, [], []⟩) (fun _ _ => rfl) specifiers words

theorem run_pointerWords (words : List String) :
    run ⟨⟨arguments, specifiers, .pointer [] :: marks, []⟩, outer⟩ (words.map .word) =
      ⟨⟨arguments, specifiers, .pointer words :: marks, []⟩, outer⟩ :=
  run_words (fun old => ⟨arguments, specifiers, .pointer old :: marks, []⟩) (fun _ _ => rfl) []
    words

theorem run_functionWords {inside : List (Tree .qualified)} {variadic : Bool}
    (words : List String) :
    run ⟨⟨arguments, specifiers, marks, .function inside variadic [] :: suffixes⟩, outer⟩
        (words.map .word) =
      ⟨⟨arguments, specifiers, marks, .function inside variadic words :: suffixes⟩, outer⟩ :=
  run_words (fun old => ⟨arguments, specifiers, marks, .function inside variadic old :: suffixes⟩)
    (fun _ _ => rfl) [] words

end Reader

/-! ### Declarators -/

/-- Read after specifiers and marks, the lexemes give these marks and suffixes more. -/
def Declares (ts : List Lexeme) (marks suffixes : List Layer) : Prop :=
  ∀ arguments specifiers before outer,
    Reader.run ⟨⟨arguments, specifiers, before, []⟩, outer⟩ ts =
      ⟨⟨arguments, specifiers, marks ++ before, suffixes⟩, outer⟩

/-- Read as an argument, the lexemes give this type. -/
def Reads (ts : List Lexeme) (type : Tree .qualified) : Prop :=
  ∀ arguments outer, ∃ f : Pending, Reader.run ⟨{ arguments }, outer⟩ ts = ⟨f, outer⟩ ∧
    f.arguments = arguments ∧ f.type = type ∧ f.words ≠ [] ∧ f.words ≠ ["..."]

namespace Declares

variable {ts : List Lexeme} {marks suffixes : List Layer}

theorem nothing : Declares [] [] [] := fun _ _ _ _ => rfl

theorem pointer (h : Declares ts marks suffixes) (words : List String) :
    Declares (.star :: words.map .word ++ ts) (marks ++ [.pointer words]) suffixes := by
  intro arguments specifiers before outer
  simp only [List.cons_append, Reader.run_cons, Reader.step, Pending.addMark, Reader.run_append,
    Reader.run_pointerWords, List.nil_append, List.append_assoc]
  exact h _ _ _ _

theorem reference (h : Declares ts marks suffixes) :
    Declares (.amper :: ts) (marks ++ [.reference]) suffixes := by
  intro arguments specifiers before outer
  simp only [Reader.run_cons, Reader.step, Pending.addMark, List.append_assoc, List.cons_append,
    List.nil_append]
  exact h _ _ _ _

theorem group (h : Declares ts marks suffixes) (marked : marks ≠ []) :
    Declares (.openParen :: ts ++ [.closeParen]) [] (marks.reverse ++ suffixes) := by
  intro arguments specifiers before outer
  obtain ⟨last, others, rfl⟩ := List.exists_cons_of_ne_nil marked
  simp only [List.cons_append, Reader.run_cons, Reader.step, Reader.run_append, h [] [],
    Reader.run_nil, Reader.close, Pending.addParentheses, Pending.layers, List.append_nil,
    List.nil_append]

theorem array (h : Declares ts [] suffixes) (size : UInt32) :
    Declares (ts ++ [.openBracket, .word (toString size.toNat), .closeBracket]) []
      (.array size :: suffixes) := by
  intro arguments specifiers before outer
  have read : Pending.size ⟨[], [toString size.toNat], [], []⟩ = size := by
    rw [Pending.size, List.headD_cons, Nat.toString_eq_ofList_toDigits, String.toList_ofList,
      Nat.ofDigitChars_ten_toDigits, UInt32.ofNat_toNat]
  rw [Reader.run_append, h]
  simp only [Reader.run_cons, Reader.step, Pending.addWord, List.nil_append, Reader.close, read,
    Pending.addSuffix, Reader.run_nil]

end Declares

theorem argumentLexemes_cons (text : List Lexeme) (rest : List (List Lexeme)) (variadic : Bool)
    (more : rest ≠ [] ∨ variadic = true) :
    argumentLexemes (text :: rest) variadic = text ++ .comma :: argumentLexemes rest variadic := by
  have follows : rest ++ (if variadic then [[.word "..."]] else []) ≠ [] := by
    rcases more with some | rfl
    · simp [some]
    · simp
  rw [argumentLexemes, List.cons_append, List.intercalate_cons_of_ne_nil follows]
  simp [argumentLexemes]

theorem run_argumentLexemes {texts : List (List Lexeme)} {types : List (Tree .qualified)}
    {variadic : Bool} (each : List.Forall₂ Reads texts types)
    (some : texts ≠ [] ∨ variadic = true) (done : List (Tree .qualified)) (outer : List Pending) :
    ∃ inner, Reader.run ⟨{ arguments := done }, outer⟩ (argumentLexemes texts variadic) =
        ⟨inner, outer⟩ ∧
      ∀ f : Pending, f.addParentheses inner =
        f.addSuffix (.function (done ++ types) variadic []) := by
  induction each generalizing done with
  | nil =>
    obtain rfl : variadic = true := by simpa using some
    exact ⟨⟨done, ["..."], [], []⟩, rfl, fun f => by simp [Pending.addParentheses]⟩
  | @cons text type rest types first others ih =>
    obtain ⟨inner, run, rfl, rfl, worded, plain⟩ := first done outer
    -- a comma follows, or the closing parenthesis
    by_cases more : rest ≠ [] ∨ variadic = true
    · obtain ⟨last, runs, closes⟩ := ih more (inner.arguments ++ [inner.type])
      refine ⟨last, ?_, fun f => ?_⟩
      · rw [argumentLexemes_cons _ _ _ more, Reader.run_append, run, Reader.run_cons, ← runs]
        rfl
      · rw [closes f, List.append_assoc]
        rfl
    · obtain ⟨rfl, rfl⟩ : rest = [] ∧ variadic = false := by simpa using more
      cases others
      refine ⟨inner, ?_, fun f => Pending.addParentheses_of_words worded plain⟩
      simpa [argumentLexemes] using run

namespace Declares

variable {ts : List Lexeme} {suffixes : List Layer}

theorem function (h : Declares ts [] suffixes) {texts : List (List Lexeme)}
    {types : List (Tree .qualified)} (each : List.Forall₂ Reads texts types) (variadic : Bool)
    (words : List String) :
    Declares (ts ++ .openParen :: argumentLexemes texts variadic ++ .closeParen :: words.map .word)
      [] (.function types variadic words :: suffixes) := by
  intro arguments specifiers before outer
  obtain ⟨inner, run, closes⟩ : ∃ inner,
      Reader.run ⟨{}, ⟨arguments, specifiers, before, suffixes⟩ :: outer⟩
        (argumentLexemes texts variadic) =
          ⟨inner, ⟨arguments, specifiers, before, suffixes⟩ :: outer⟩ ∧
      ∀ f : Pending, f.addParentheses inner = f.addSuffix (.function types variadic []) := by
    by_cases some : texts ≠ [] ∨ variadic = true
    · exact run_argumentLexemes each some [] _
    · obtain ⟨rfl, rfl⟩ : texts = [] ∧ variadic = false := by simpa using some
      cases each
      exact ⟨{}, rfl, fun f => rfl⟩
  rw [List.append_assoc, Reader.run_append, h, List.cons_append, Reader.run_cons, Reader.run_append]
  simp only [Reader.step, List.nil_append, run, Reader.run_cons, Reader.close, closes,
    Pending.addSuffix, Reader.run_functionWords]

end Declares

end Respell

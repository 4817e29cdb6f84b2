import Respell.Json.Number

/-!
Tokens of JSON texts. Blanks are the four that JSON allows; a string may hold every character but
control characters, and escapes. An escape may name half of a surrogate pair on its own: such a
string can be skipped, but it stands for no text.
-/
namespace Respell.Json

/-- A token. A string without a text has an escape for half of a surrogate pair. -/
inductive Token
  | openObject | closeObject | openArray | closeArray | comma | colon
  | string (text : Option String)
  | number (n : Number)
  | bool (value : Bool)
  | null
  deriving DecidableEq, Repr

namespace Token

/-- What one character or escape of a string contributes: a character, or a code unit. -/
inductive Piece
  | char (c : Char)
  | unit (code : Nat)
  deriving DecidableEq, Repr

def isHighSurrogate (code : Nat) : Bool := 0xd800 ≤ code && code < 0xdc00

def isLowSurrogate (code : Nat) : Bool := 0xdc00 ≤ code && code < 0xe000

def ofSurrogates (high low : Nat) : Char :=
  Char.ofNat (0x10000 + (high - 0xd800) * 0x400 + (low - 0xdc00))

/-- The characters of the pieces, unless half of a surrogate pair stands alone. -/
def textOfPieces : List Piece → Option (List Char)
  | [] => some []
  | .char c :: rest => (textOfPieces rest).map (c :: ·)
  | .unit high :: .unit low :: rest =>
    if isHighSurrogate high then
      if isLowSurrogate low then (textOfPieces rest).map (ofSurrogates high low :: ·) else none
    else if isLowSurrogate high then none
    else (textOfPieces (.unit low :: rest)).map (Char.ofNat high :: ·)
  | .unit code :: rest =>
    if isHighSurrogate code || isLowSurrogate code then none
    else (textOfPieces rest).map (Char.ofNat code :: ·)

def hexDigit? (c : Char) : Option Nat :=
  if '0' ≤ c ∧ c ≤ '9' then some (c.toNat - '0'.toNat)
  else if 'a' ≤ c ∧ c ≤ 'f' then some (c.toNat - 'a'.toNat + 10)
  else if 'A' ≤ c ∧ c ≤ 'F' then some (c.toNat - 'A'.toNat + 10)
  else none

def hexValue? (a b c d : Char) : Option Nat := do
  let a ← hexDigit? a
  let b ← hexDigit? b
  let c ← hexDigit? c
  let d ← hexDigit? d
  pure (((a * 16 + b) * 16 + c) * 16 + d)

def escaped? : Char → Option Char
  | '"' => some '"'
  | '\\' => some '\\'
  | '/' => some '/'
  | 'b' => some '\x08'
  | 'f' => some '\x0c'
  | 'n' => some '\n'
  | 'r' => some '\r'
  | 't' => some '\t'
  | _ => none

def pieces? : List Char → Option (List Piece × List Char)
  | [] => none
  | '"' :: rest => some ([], rest)
  | '\\' :: 'u' :: a :: b :: c :: d :: rest => do
    let code ← hexValue? a b c d
    let (pieces, rest) ← pieces? rest
    pure (.unit code :: pieces, rest)
  | '\\' :: c :: rest => do
    let c ← escaped? c
    let (pieces, rest) ← pieces? rest
    pure (.char c :: pieces, rest)
  | c :: rest =>
    if c.toNat < 0x20 ∨ c = '\\' then none
    else do
      let (pieces, rest) ← pieces? rest
      pure (.char c :: pieces, rest)

def digits? (cs : List Char) : Option (List Nat × List Char) :=
  match cs.takeWhile Char.isDigit with
  | [] => none
  | digits => some (digits.map fun c => c.toNat - '0'.toNat, cs.dropWhile Char.isDigit)

def whole? : List Char → Option (List Nat × List Char)
  | '0' :: rest => some ([0], rest)
  | cs => digits? cs

def fraction? : List Char → Option (Option (List Nat) × List Char)
  | '.' :: rest => (digits? rest).map fun (digits, rest) => (some digits, rest)
  | cs => some (none, cs)

def exponentDigits? : List Char → Option ((Bool × List Nat) × List Char)
  | '-' :: rest => (digits? rest).map fun (digits, rest) => ((true, digits), rest)
  | '+' :: rest => (digits? rest).map fun (digits, rest) => ((false, digits), rest)
  | cs => (digits? cs).map fun (digits, rest) => ((false, digits), rest)

def exponent? : List Char → Option (Option (Bool × List Nat) × List Char)
  | 'e' :: rest | 'E' :: rest =>
    (exponentDigits? rest).map fun (exponent, rest) => (some exponent, rest)
  | cs => some (none, cs)

def unsigned? (negative : Bool) (cs : List Char) : Option (Number × List Char) := do
  let (whole, cs) ← whole? cs
  let (fraction, cs) ← fraction? cs
  let (exponent, cs) ← exponent? cs
  pure (⟨negative, whole, fraction, exponent⟩, cs)

/-- The token at the start of a text that does not start with a blank, and what follows it. -/
def next? : List Char → Option (Token × List Char)
  | '\x7b' :: rest => some (openObject, rest)
  | '\x7d' :: rest => some (closeObject, rest)
  | '[' :: rest => some (openArray, rest)
  | ']' :: rest => some (closeArray, rest)
  | ',' :: rest => some (comma, rest)
  | ':' :: rest => some (colon, rest)
  | '"' :: rest =>
    (pieces? rest).map fun (pieces, rest) => (string ((textOfPieces pieces).map String.ofList), rest)
  | 't' :: 'r' :: 'u' :: 'e' :: rest => some (bool true, rest)
  | 'f' :: 'a' :: 'l' :: 's' :: 'e' :: rest => some (bool false, rest)
  | 'n' :: 'u' :: 'l' :: 'l' :: rest => some (null, rest)
  | '-' :: rest => (unsigned? true rest).map fun (n, rest) => (number n, rest)
  | cs => (unsigned? false cs).map fun (n, rest) => (number n, rest)

def isSpace (c : Char) : Bool := c == ' ' || c == '\t' || c == '\n' || c == '\r'

/-! ### Every token takes up characters -/

theorem length_of_pieces? {cs : List Char} {pieces : List Piece} {rest : List Char}
    (h : pieces? cs = some (pieces, rest)) : rest.length < cs.length := by
  fun_induction pieces? cs generalizing pieces rest with
  | case1 => simp at h
  | case2 => simp_all
  | case3 a b c d cs ih =>
    simp only [Option.bind_eq_bind, Option.bind_eq_some_iff, Option.pure_def] at h
    obtain ⟨_, _, ⟨_, _⟩, hp, h⟩ := h
    have := ih hp
    simp_all
    omega
  | case4 c cs _ ih =>
    simp only [Option.bind_eq_bind, Option.bind_eq_some_iff, Option.pure_def] at h
    obtain ⟨_, _, ⟨_, _⟩, hp, h⟩ := h
    have := ih hp
    simp_all
    omega
  | case5 => simp at h
  | case6 c cs _ _ _ _ ih =>
    simp only [Option.bind_eq_bind, Option.bind_eq_some_iff, Option.pure_def] at h
    obtain ⟨⟨_, _⟩, hp, h⟩ := h
    have := ih hp
    simp_all
    omega

theorem length_of_digits? {cs : List Char} {digits : List Nat} {rest : List Char}
    (h : digits? cs = some (digits, rest)) : rest.length < cs.length := by
  unfold digits? at h
  split at h
  · simp at h
  · rename_i hne
    simp only [Option.some.injEq, Prod.mk.injEq] at h
    obtain ⟨_, rfl⟩ := h
    have split := congrArg List.length (List.takeWhile_append_dropWhile (p := Char.isDigit) (l := cs))
    have : 0 < (cs.takeWhile Char.isDigit).length := List.length_pos_iff.mpr hne
    simp only [List.length_append] at split
    omega

theorem length_of_whole? {cs : List Char} {digits : List Nat} {rest : List Char}
    (h : whole? cs = some (digits, rest)) : rest.length < cs.length := by
  unfold whole? at h
  split at h
  · simp_all
  · exact length_of_digits? h

theorem length_of_fraction? {cs : List Char} {digits : Option (List Nat)} {rest : List Char}
    (h : fraction? cs = some (digits, rest)) : rest.length ≤ cs.length := by
  unfold fraction? at h
  split at h
  · obtain ⟨⟨_, _⟩, hd, h⟩ := Option.map_eq_some_iff.mp h
    have := length_of_digits? hd
    simp_all
    omega
  · simp_all

theorem length_of_exponentDigits? {cs : List Char} {exponent : Bool × List Nat} {rest : List Char}
    (h : exponentDigits? cs = some (exponent, rest)) : rest.length < cs.length := by
  unfold exponentDigits? at h
  split at h <;> obtain ⟨⟨_, _⟩, hd, h⟩ := Option.map_eq_some_iff.mp h <;>
    have := length_of_digits? hd <;> simp_all <;> omega

theorem length_of_exponent? {cs : List Char} {exponent : Option (Bool × List Nat)}
    {rest : List Char} (h : exponent? cs = some (exponent, rest)) : rest.length ≤ cs.length := by
  unfold exponent? at h
  split at h
  · obtain ⟨⟨_, _⟩, hd, h⟩ := Option.map_eq_some_iff.mp h
    have := length_of_exponentDigits? hd
    simp_all
    omega
  · obtain ⟨⟨_, _⟩, hd, h⟩ := Option.map_eq_some_iff.mp h
    have := length_of_exponentDigits? hd
    simp_all
    omega
  · simp_all

theorem length_of_unsigned? {negative : Bool} {cs : List Char} {n : Number} {rest : List Char}
    (h : unsigned? negative cs = some (n, rest)) : rest.length < cs.length := by
  simp only [unsigned?, Option.bind_eq_bind, Option.bind_eq_some_iff, Option.pure_def,
    Option.some.injEq, Prod.mk.injEq] at h
  obtain ⟨⟨_, _⟩, hw, ⟨_, _⟩, hf, ⟨_, _⟩, he, _, rfl⟩ := h
  have := length_of_whole? hw
  have := length_of_fraction? hf
  have := length_of_exponent? he
  dsimp only at *
  omega

theorem length_of_next? {cs : List Char} {token : Token} {rest : List Char}
    (h : next? cs = some (token, rest)) : rest.length < cs.length := by
  unfold next? at h
  split at h
  case h_7 =>
    obtain ⟨⟨_, _⟩, hd, h⟩ := Option.map_eq_some_iff.mp h
    have := length_of_pieces? hd
    simp_all
    omega
  case h_11 =>
    obtain ⟨⟨_, _⟩, hd, h⟩ := Option.map_eq_some_iff.mp h
    have := length_of_unsigned? hd
    simp_all
    omega
  case h_12 =>
    obtain ⟨⟨_, _⟩, hd, h⟩ := Option.map_eq_some_iff.mp h
    have := length_of_unsigned? hd
    simp_all
  all_goals
    simp only [Option.some.injEq, Prod.mk.injEq] at h
    obtain ⟨_, rfl⟩ := h
    simp only [List.length_cons]
    omega

def scan (cs : List Char) : Option (List Token) :=
  match cs with
  | [] => some []
  | c :: rest =>
    if isSpace c then scan rest
    else
      match _h : next? (c :: rest) with
      | none => none
      | some (token, rest) => (scan rest).map (token :: ·)
termination_by cs.length
decreasing_by
  · simp
  · exact length_of_next? _h

end Token
end Respell.Json

/-!
Closed vocabularies: the built-in kinds of types and operators, and the words by which documents
and diagnostics name them.
-/
namespace Respell

/-- A finite set of values, each known to documents by one word. -/
class Vocabulary (α : Type) where
  /-- Every value, in the order in which the vocabulary is numbered. -/
  all : List α
  /-- The word that stands for a value. -/
  word : α → String

def Vocabulary.ofWord? (α : Type) [Vocabulary α] (text : String) : Option α :=
  (Vocabulary.all : List α).find? fun value => word value == text

inductive IntegerKind
  | char | wideChar | char16 | char32 | bool | short | int | long | longLong
  deriving DecidableEq, Repr

namespace IntegerKind

def spelling : IntegerKind → String
  | char => "char"
  | wideChar => "wchar_t"
  | char16 => "char16_t"
  | char32 => "char32_t"
  | bool => "bool"
  | short => "short"
  | int => "int"
  | long => "long"
  | longLong => "long long"

instance : Vocabulary IntegerKind where
  all := [char, wideChar, char16, char32, bool, short, int, long, longLong]
  word
    | char => "char"
    | wideChar => "wide_char"
    | char16 => "char16"
    | char32 => "char32"
    | bool => "bool"
    | short => "short"
    | int => "int"
    | long => "long"
    | longLong => "long_long"

end IntegerKind

inductive FloatKind
  | float | double | longDouble
  deriving DecidableEq, Repr

namespace FloatKind

def spelling : FloatKind → String
  | float => "float"
  | double => "double"
  | longDouble => "long double"

instance : Vocabulary FloatKind where
  all := [float, double, longDouble]
  word
    | float => "float"
    | double => "double"
    | longDouble => "long_double"

end FloatKind

inductive OperatorKind
  | new | delete | newArray | deleteArray
  | plus | minus | star | slash | percent | caret | amper | pipe | tilde | exclaim
  | equal | less | greater
  | plusEqual | minusEqual | starEqual | slashEqual | percentEqual | caretEqual | amperEqual
  | pipeEqual | lessLess | greaterGreater | lessLessEqual | greaterGreaterEqual
  | equalEqual | exclaimEqual | lessEqual | greaterEqual
  | amperAmper | pipePipe | plusPlus | minusMinus | comma | arrowStar | arrow | function | array
  deriving DecidableEq, Repr

namespace OperatorKind

/-- What follows the word `operator` in C++, with a blank in front of the words. -/
def spelling : OperatorKind → String
  | new => " new"
  | delete => " delete"
  | newArray => " new[]"
  | deleteArray => " delete[]"
  | plus => "+"
  | minus => "-"
  | star => "*"
  | slash => "/"
  | percent => "%"
  | caret => "^"
  | amper => "&"
  | pipe => "|"
  | tilde => "~"
  | exclaim => "!"
  | equal => "="
  | less => "<"
  | greater => ">"
  | plusEqual => "+="
  | minusEqual => "-="
  | starEqual => "*="
  | slashEqual => "/="
  | percentEqual => "%="
  | caretEqual => "^="
  | amperEqual => "&="
  | pipeEqual => "|="
  | lessLess => "<<"
  | greaterGreater => ">>"
  | lessLessEqual => "<<="
  | greaterGreaterEqual => ">>="
  | equalEqual => "=="
  | exclaimEqual => "!="
  | lessEqual => "<="
  | greaterEqual => ">="
  | amperAmper => "&&"
  | pipePipe => "||"
  | plusPlus => "++"
  | minusMinus => "--"
  | comma => ","
  | arrowStar => "->*"
  | arrow => "->"
  | function => "()"
  | array => "[]"

instance : Vocabulary OperatorKind where
  all := [new, delete, newArray, deleteArray, plus, minus, star, slash, percent, caret, amper,
    pipe, tilde, exclaim, equal, less, greater, plusEqual, minusEqual, starEqual, slashEqual,
    percentEqual, caretEqual, amperEqual, pipeEqual, lessLess, greaterGreater, lessLessEqual,
    greaterGreaterEqual, equalEqual, exclaimEqual, lessEqual, greaterEqual, amperAmper, pipePipe,
    plusPlus, minusMinus, comma, arrowStar, arrow, function, array]
  word
    | new => "new"
    | delete => "delete"
    | newArray => "new_array"
    | deleteArray => "delete_array"
    | plus => "plus"
    | minus => "minus"
    | star => "star"
    | slash => "slash"
    | percent => "percent"
    | caret => "caret"
    | amper => "amper"
    | pipe => "pipe"
    | tilde => "tilde"
    | exclaim => "exclaim"
    | equal => "equal"
    | less => "less"
    | greater => "greater"
    | plusEqual => "plus_equal"
    | minusEqual => "minus_equal"
    | starEqual => "star_equal"
    | slashEqual => "slash_equal"
    | percentEqual => "percent_equal"
    | caretEqual => "caret_equal"
    | amperEqual => "amper_equal"
    | pipeEqual => "pipe_equal"
    | lessLess => "less_less"
    | greaterGreater => "greater_greater"
    | lessLessEqual => "less_less_equal"
    | greaterGreaterEqual => "greater_greater_equal"
    | equalEqual => "equal_equal"
    | exclaimEqual => "exclaim_equal"
    | lessEqual => "less_equal"
    | greaterEqual => "greater_equal"
    | amperAmper => "amper_amper"
    | pipePipe => "pipe_pipe"
    | plusPlus => "plus_plus"
    | minusMinus => "minus_minus"
    | comma => "comma"
    | arrowStar => "arrow_star"
    | arrow => "arrow"
    | function => "function"
    | array => "array"

end OperatorKind

inductive MethodKey
  | normal | signal | slot | invokable
  deriving DecidableEq, Repr, Inhabited

instance : Vocabulary MethodKey where
  all := [.normal, .signal, .slot, .invokable]
  word
    | .normal => "normal"
    | .signal => "signal"
    | .slot => "slot"
    | .invokable => "invokable"

inductive StorageClass
  | none | auto | register
  deriving DecidableEq, Repr, Inhabited

instance : Vocabulary StorageClass where
  all := [.none, .auto, .register]
  word
    | .none => "none"
    | .auto => "auto"
    | .register => "register"

/-- The shapes of types that stand for a whole declaration and are opaque here. -/
inductive OpaqueShape
  | nameSpace | classType | enumType | forwardClass
  | objcClass | objcProtocol | objcMethod | objcForwardClass | objcForwardProtocol
  deriving DecidableEq, Repr

/-- An opaque shape is known by the label that diagnostics print. -/
instance : Vocabulary OpaqueShape where
  all := [.nameSpace, .classType, .enumType, .forwardClass, .objcClass, .objcProtocol,
    .objcMethod, .objcForwardClass, .objcForwardProtocol]
  word
    | .nameSpace => "namespace"
    | .classType => "class"
    | .enumType => "enum"
    | .forwardClass => "forward class declaration"
    | .objcClass => "Objective-C class"
    | .objcProtocol => "Objective-C protocol"
    | .objcMethod => "Objective-C method"
    | .objcForwardClass => "Objective-C forward class declaration"
    | .objcForwardProtocol => "Objective-C forward protocol declaration"

def OpaqueShape.label (shape : OpaqueShape) : String := Vocabulary.word shape

end Respell

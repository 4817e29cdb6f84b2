import Respell.Text.Split

/-!
Diagnostic messages: categories, codes, and templates with numbered placeholders. A template is
filled by one replacement pass for each argument, in order, over the text made so far.
-/
namespace Respell

inductive Category
  | warning | error | suggestion | message
  deriving DecidableEq, Repr

namespace Category

def all : List Category := [warning, error, suggestion, message]

def word : Category → String
  | warning => "warning"
  | error => "error"
  | suggestion => "suggestion"
  | message => "message"

end Category

structure Message where
  code : Nat
  category : Category
  template : String
  deriving DecidableEq, Repr

namespace Message

def placeholder (number : Nat) : String := "\x7b" ++ toString number ++ "\x7d"

/-- Replaces the placeholders of the arguments, the first of which has the given number. -/
def fillFrom (number : Nat) (text : List Char) : List String → List Char
  | [] => text
  | argument :: rest =>
    fillFrom (number + 1)
      (Text.replaceAll (placeholder number).toList argument.toList text) rest

def fill (template : String) (arguments : List String) : String :=
  String.ofList (fillFrom 0 template.toList arguments)

def unsupportedShape : Message where
  code := 9001
  category := .warning
  template :=
    "Rewriting is not supported for \x7b0\x7d types; the type was returned unchanged."

def all : List Message := [unsupportedShape]

def ofCode? (code : Nat) : Option Message := all.find? (·.code == code)

end Message
end Respell

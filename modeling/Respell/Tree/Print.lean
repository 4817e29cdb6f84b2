import Respell.Tree

/-!
C++ spelling of trees. A type is printed around the thing it declares: the specifiers of the
innermost type come first, and pointer, reference, array and function declarators wrap an inner
text, as in `const char *const name` or `int (*)(char, double)`. Printing is therefore a function of
the inner text, and the text of a whole type is its declarator around nothing.
-/
namespace Respell

/-- Words with a blank between them; empty words are left out. -/
def joinWords (words : List String) : String :=
  " ".intercalate (words.filter fun word => !word.isEmpty)

namespace Qualifiers

def cvWords (q : Qualifiers) : List String :=
  (if q.contains .const then ["const"] else []) ++
    (if q.contains .volatile then ["volatile"] else [])

/-- The sign word of a set; `unsigned` hides `signed`. -/
def signWords (q : Qualifiers) : List String :=
  if q.contains .unsigned then ["unsigned"]
  else if q.contains .signed then ["signed"]
  else []

end Qualifiers

/-- A declarator that starts with a pointer mark: its `const` and `volatile` follow the mark. -/
def pointerDeclarator (mark : String) (q : Qualifiers) (inner : String) : String :=
  let cv := " ".intercalate q.cvWords
  if cv.isEmpty then mark ++ inner
  else if inner.isEmpty then mark ++ cv
  else mark ++ cv ++ " " ++ inner

/-- A type that is no declarator of others: its specifiers, its own spelling, the inner text. -/
def specifierText (q : Qualifiers) (spelling inner : String) : String :=
  joinWords (q.cvWords ++ q.signWords ++ [spelling, inner])

/-- A function declarator. The name of the function is used only where nothing else is declared. -/
def functionDeclarator (name : String) (arguments : List String) (attributes : FunctionAttributes)
    (inner : String) : String :=
  let arguments := if attributes.variadic then arguments ++ ["..."] else arguments
  (if inner.isEmpty then name else inner) ++ "(" ++ ", ".intercalate arguments ++ ")" ++
    (if attributes.const then " const" else "") ++
    (if attributes.volatile then " volatile" else "")

namespace Tree

/-- Whether a type binds its declarator tighter than a pointer or reference mark does. -/
def bindsTighter : Tree .qualified → Bool
  | qual (function ..) _ => true
  | qual (shapeless _) _ => true
  | qual (array ..) _ => true
  | _ => false

def parenthesize (element : Tree .qualified) (declarator : String) : String :=
  if element.bindsTighter then "(" ++ declarator ++ ")" else declarator

/-- What printing gives for each kind of part: a type wraps an inner text, under the qualifiers
of its position; lists give one text for each member. -/
abbrev Printed : Part → Type
  | .type => Qualifiers → String → String
  | .qualified => String → String
  | .name | .optionalName => String
  | .types | .names | .arguments => List String

/-- The spelling of a tree. `spell` gives the full name of a declaration, where one is known. -/
def print (spell : SymbolId → Option String) : {p : Part} → Tree p → Printed p
  | _, undefined => fun q inner => specifierText q "<undefined>" inner
  | _, void => fun q inner => specifierText q "void" inner
  | _, integer kind => fun q inner => specifierText q kind.spelling inner
  | _, float kind => fun q inner => specifierText q kind.spelling inner
  | _, pointer element => fun q inner =>
    element.print spell (element.parenthesize (pointerDeclarator "*" q inner))
  | _, reference element => fun _ inner =>
    element.print spell (element.parenthesize ("&" ++ inner))
  | _, array element size => fun _ inner =>
    element.print spell (inner ++ "[" ++ toString size.toNat ++ "]")
  | _, memberPointer owner element => fun q inner =>
    element.print spell
      (element.parenthesize (pointerDeclarator (owner.print spell ++ "::*") q inner))
  | _, named name => fun q inner => specifierText q (name.print spell) inner
  | _, function name result arguments attributes => fun _ inner =>
    result.print spell
      (functionDeclarator (name.print spell) (arguments.print spell) attributes inner)
  | _, shapeless _ => fun _ inner => joinWords ["<unknown function>", inner]
  | _, declared shape symbol => fun q inner =>
    specifierText q ((spell symbol).getD ("<" ++ shape.label ++ ">")) inner
  | _, unknown _ => fun _ inner => joinWords ["<unknown type>", inner]
  | _, qual type q => fun inner => type.print spell q inner
  | _, identifier text => text
  | _, qualified base member => base.print spell ++ "::" ++ member.print spell
  | _, template text args => text ++ "<" ++ ", ".intercalate (args.print spell) ++ ">"
  | _, destructor text => "~" ++ text
  | _, operator kind => "operator" ++ kind.spelling
  | _, conversion target => "operator " ++ target.print spell ""
  | _, selector parts hasArguments =>
    String.join ((parts.print spell).map fun part => if hasArguments then part ++ ":" else part)
  | _, unknownName _ => "<unknown name>"
  | _, noName => ""
  | _, justName name => name.print spell
  | _, noTypes => []
  | _, consType first rest => first.print spell "" :: rest.print spell
  | _, noNames => []
  | _, consName first rest => first.print spell :: rest.print spell
  | _, noArguments => []
  | _, consArgument name type defaultValue _ rest =>
    (type.print spell (name.print spell) ++
      match defaultValue with
      | some text => " = " ++ text
      | none => "") :: rest.print spell

/-- The declarations whose full names printing asks `spell` for. A type may be printed around
nothing (`alone`); only then is a function called by its own name. -/
def asked : (alone : Bool) → {p : Part} → Tree p → List SymbolId
  | _, _, undefined | _, _, void | _, _, integer _ | _, _, float _ => []
  | _, _, pointer element | _, _, reference element | _, _, array element _ => element.asked false
  | _, _, memberPointer owner element => owner.asked true ++ element.asked false
  | _, _, named name => name.asked true
  | alone, _, function name result arguments _ =>
    (if alone then name.asked true else []) ++ arguments.asked true ++ result.asked false
  | _, _, shapeless _ | _, _, unknown _ => []
  | _, _, declared _ symbol => [symbol]
  | alone, _, qual type _ => type.asked alone
  | _, _, identifier _ | _, _, destructor _ | _, _, operator _ => []
  | _, _, qualified base member => base.asked true ++ member.asked true
  | _, _, template _ args => args.asked true
  | _, _, conversion target => target.asked true
  | _, _, selector parts _ => parts.asked true
  | _, _, unknownName _ | _, _, noName => []
  | _, _, justName name => name.asked true
  | _, _, noTypes | _, _, noNames | _, _, noArguments => []
  | _, _, consType first rest => first.asked true ++ rest.asked true
  | _, _, consName first rest => first.asked true ++ rest.asked true
  | _, _, consArgument name type _ _ rest =>
    name.asked true ++ type.asked (name.print fun _ => none).isEmpty ++ rest.asked true

end Tree

namespace Store

/-- The spelling of a type as the type of a declaration of the thing called `inner`. -/
def declarationText (s : Store) (spell : SymbolId → Option String) (t : QualType)
    (inner : String) : String :=
  (s.qualTree t).print spell inner

def typeText (s : Store) (spell : SymbolId → Option String) (t : QualType) : String :=
  s.declarationText spell t ""

def nameText (s : Store) (spell : SymbolId → Option String) (n : NameId) : String :=
  (s.nameTree n).print spell

end Store
end Respell

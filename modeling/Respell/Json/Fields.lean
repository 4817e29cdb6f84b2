import Respell.Json.Value
import Respell.Vocabulary

/-!
Fields of JSON values. A record is an object with a member for each field, or an array of the fields
in their order; a tagged value is a record whose first field says which further fields there are.
Members that are no fields are ignored, and a field must not be repeated.
-/
namespace Respell.Json

/-- The value of a field among the members of an object, unless the field is repeated. -/
def field? (members : List (Option String × Json)) (name : String) : Option (Option Json) :=
  match members.filter fun member => member.1 == some name with
  | [] => some none
  | [(_, v)] => some (some v)
  | _ => none

/-- The fields that an array gives in order; missing ones at the end are absent. -/
def arrayFields? (names : List String) (items : List Json) : Option (List (Option Json)) :=
  if items.length ≤ names.length then
    some (items.map some ++ List.replicate (names.length - items.length) none)
  else none

def record? (names : List String) : Json → Option (List (Option Json))
  | object members =>
    if members.all fun member => member.1.isSome then names.mapM (field? members) else none
  | array items => arrayFields? names items
  | _ => none

/-- The kind that a tag names, by its word or by its number, with the fields of that kind. -/
def kindOf? (kinds : List (String × List String)) : Json → Option (String × List String)
  | string (some word) => kinds.find? fun kind => kind.1 == word
  | number n => n.natural?.bind fun index => kinds[index]?
  | _ => none

def taggedObject? (kinds : List (String × List String)) (members : List (Option String × Json)) :
    Option (String × List (Option Json)) := do
  let tag ← field? members "kind"
  let (word, names) ← kindOf? kinds (← tag)
  let fields ← names.mapM (field? members)
  pure (word, fields)

def tagged? (kinds : List (String × List String)) : Json → Option (String × List (Option Json))
  | object members => taggedObject? kinds members
  | array (tag :: items) => do
    let (word, names) ← kindOf? kinds tag
    let fields ← arrayFields? names items
    pure (word, fields)
  | _ => none

def list? {α : Type} (f : Json → Option α) : Json → Option (List α)
  | array items => items.mapM f
  | _ => none

def optional? {α : Type} (f : Json → Option α) : Option Json → Option (Option α)
  | none | some null => some none
  | some v => (f v).map some

def withDefault? {α : Type} (default : α) (f : Json → Option α) : Option Json → Option α
  | none => some default
  | some v => f v

def text? : Json → Option String
  | string text => text
  | _ => none

def bool? : Json → Option Bool
  | bool value => some value
  | _ => none

def word32? : Json → Option UInt32
  | number n => n.natural?.bind fun value =>
    if value < UInt32.size then some (UInt32.ofNat value) else none
  | _ => none

/-- A word of a vocabulary, alone or as the only key of an object. The key may have the value null
and, where `emptyObjects` allows it, an empty object. -/
def word? (α : Type) [Vocabulary α] (emptyObjects : Bool) : Json → Option α
  | string (some word) => Vocabulary.ofWord? α word
  | object [(some word, null)] => Vocabulary.ofWord? α word
  | object [(some word, object [])] => if emptyObjects then Vocabulary.ofWord? α word else none
  | _ => none

end Respell.Json

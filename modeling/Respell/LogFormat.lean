/-!
The forms in which a log can be written.
-/
namespace Respell

inductive LogFormat
  | text | tree | json
  deriving DecidableEq, Repr

namespace LogFormat

def word : LogFormat → String
  | text => "text"
  | tree => "tree"
  | json => "json"

/-- The form that a word asks for, in upper or lower case; flat text when it asks for none. No
letter outside ASCII has a lower-case letter of these words as its own. -/
def ofWord (value : String) : LogFormat :=
  match String.ofList (value.toList.map Char.toLower) with
  | "tree" => tree
  | "json" => json
  | _ => text

end LogFormat
end Respell

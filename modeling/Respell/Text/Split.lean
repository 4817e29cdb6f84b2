/-!
Splitting a text at `::`, and replacing one text by another. Both look for matches from the left
and go on behind the last match, so matches never overlap.
-/
namespace Respell.Text

/-- The parts of a text between its `::` separators; a text without one is its only part. -/
def splitPath : List Char → List (List Char)
  | [] => [[]]
  | ':' :: ':' :: rest => [] :: splitPath rest
  | c :: rest =>
    match splitPath rest with
    | [] => [[c]]
    | part :: parts => (c :: part) :: parts

def hasSeparator : List Char → Bool
  | [] => false
  | ':' :: ':' :: _ => true
  | _ :: rest => hasSeparator rest

def joinPath (parts : List String) : String := "::".intercalate parts

/-- The text in which every occurrence of a nonempty `pattern` has become `replacement`; `skip`
characters at its start belong to an occurrence that was replaced already. -/
def replaceFrom (pattern replacement : List Char) : Nat → List Char → List Char
  | _, [] => []
  | skip + 1, _ :: rest => replaceFrom pattern replacement skip rest
  | 0, c :: rest =>
    if pattern.isPrefixOf (c :: rest) then
      replacement ++ replaceFrom pattern replacement (pattern.length - 1) rest
    else c :: replaceFrom pattern replacement 0 rest

def replaceAll (pattern replacement : List Char) (text : List Char) : List Char :=
  replaceFrom pattern replacement 0 text

theorem splitPath_ne_nil (cs : List Char) : splitPath cs ≠ [] := by
  fun_cases splitPath cs <;> simp

end Respell.Text

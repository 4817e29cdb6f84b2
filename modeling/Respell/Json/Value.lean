import Respell.Json.Token

/-!
JSON values, and reading them from tokens. Reading keeps the arrays and objects that are still open
on a stack, so it goes through the tokens once, however deep they nest. Whether a value may be used
is a separate question (`Json.readable`): a value that nobody looks at may nest deeper, and hold
numbers and strings, that a value in use may not.
-/
namespace Respell

/-- A JSON value. Objects keep their members in order, repeated keys included. -/
inductive Json
  | null
  | bool (value : Bool)
  | number (n : Json.Number)
  | string (text : Option String)
  | array (items : List Json)
  | object (members : List (Option String × Json))

namespace Json

/-- An array or object that is still open, with its latest item or member in front. -/
inductive Frame
  | array (items : List Json)
  | object (members : List (Option String × Json))
  | member (members : List (Option String × Json)) (key : Option String)

inductive Expected
  | value
  | itemOrEnd
  | keyOrEnd
  | key
  | colon
  | commaOrEnd
  | nothing (result : Json)

/-- The frames that are open, the innermost first, and what may come next. -/
structure Progress where
  frames : List Frame
  expected : Expected

namespace Progress

def start : Progress := ⟨[], .value⟩

def complete : List Frame → Json → Option Progress
  | [], v => some ⟨[], .nothing v⟩
  | .array items :: rest, v => some ⟨.array (v :: items) :: rest, .commaOrEnd⟩
  | .member members key :: rest, v => some ⟨.object ((key, v) :: members) :: rest, .commaOrEnd⟩
  | .object _ :: _, _ => none

def startValue (frames : List Frame) : Token → Option Progress
  | .openObject => some ⟨.object [] :: frames, .keyOrEnd⟩
  | .openArray => some ⟨.array [] :: frames, .itemOrEnd⟩
  | .string text => complete frames (.string text)
  | .number n => complete frames (.number n)
  | .bool value => complete frames (.bool value)
  | .null => complete frames .null
  | _ => none

def close : List Frame → Token → Option Progress
  | .array items :: rest, .closeArray => complete rest (.array items.reverse)
  | .object members :: rest, .closeObject => complete rest (.object members.reverse)
  | _, _ => none

def startMember : List Frame → Token → Option Progress
  | .object members :: rest, .string key => some ⟨.member members key :: rest, .colon⟩
  | _, _ => none

def afterComma : List Frame → Option Progress
  | .array items :: rest => some ⟨.array items :: rest, .value⟩
  | .object members :: rest => some ⟨.object members :: rest, .key⟩
  | _ => none

def step (p : Progress) (token : Token) : Option Progress :=
  match p.expected with
  | .value => startValue p.frames token
  | .itemOrEnd =>
    if token = .closeArray then close p.frames token else startValue p.frames token
  | .keyOrEnd =>
    if token = .closeObject then close p.frames token else startMember p.frames token
  | .key => startMember p.frames token
  | .colon => if token = .colon then some ⟨p.frames, .value⟩ else none
  | .commaOrEnd => if token = .comma then afterComma p.frames else close p.frames token
  | .nothing _ => none

def result? (p : Progress) : Option Json :=
  match p.expected with
  | .nothing v => some v
  | _ => none

end Progress

def ofTokens? (tokens : List Token) : Option Json := do
  let progress ← tokens.foldlM Progress.step Progress.start
  progress.result?

def parse? (text : String) : Option Json := do
  let tokens ← Token.scan text.toList
  ofTokens? tokens

def depthLimit : Nat := 127

/-- Whether a value can be used: it nests no deeper than `room`, doubles can hold its numbers, and
its strings stand for texts. -/
def readable : Nat → Json → Bool
  | _, null => true
  | _, bool _ => true
  | _, number n => n.inRange
  | _, string text => text.isSome
  | room + 1, array items => items.all fun item => readable room item
  | room + 1, object members => members.all fun (key, v) => key.isSome && readable room v
  | 0, array _ => false
  | 0, object _ => false

end Json
end Respell

import Respell.Document.Read
import Respell.Report

/-!
The command line. The arguments are taken from left to right. A value is checked only when the next
argument settles that it is complete, so an argument that cannot be placed at all is reported before
a bad value right in front of it.
-/
namespace Respell

inductive UsageError
  | unknownArgument | invalidValue | missingArgument | repeatedArgument | unwantedValue
  | helpWanted | versionWanted
  deriving DecidableEq, Repr

structure Options where
  input : String
  qualify : Bool := false
  format : OutputFormat := .text
  deriving DecidableEq, Repr

namespace Options

inductive Pending
  | nothing
  | format (value : Option String)
  | input (value : String)
  deriving DecidableEq, Repr

structure Partial where
  input : Option String := none
  qualify : Bool := false
  format : Option OutputFormat := none
  pending : Pending := .nothing
  placed : Bool := false
  /-- Whether all further arguments are inputs, whatever they look like. -/
  escaped : Bool := false
  deriving DecidableEq, Repr

def lowered (word : String) : String := String.ofList (word.toList.map Char.toLower)

namespace Partial

def setFormat (p : Partial) (value : String) : Except UsageError Partial :=
  if p.format.isSome then .error .repeatedArgument
  else
    match Vocabulary.ofWord? OutputFormat (lowered value) with
    | some format => .ok { p with format := some format }
    | none => .error .invalidValue

def settle (p : Partial) : Except UsageError Partial :=
  match p.pending with
  | .nothing => .ok p
  | .format none => .error .invalidValue
  | .format (some value) => { p with pending := .nothing }.setFormat value
  | .input value =>
    if value.isEmpty then .error .invalidValue
    else .ok { p with pending := .nothing, input := some value }

/-- An argument that starts with two dashes: its word, and the value behind an equals sign. -/
def long (p : Partial) (word : String) (value : Option String) : Except UsageError Partial :=
  match word, value with
  | "qualify", none => do
    let p ← p.settle
    if p.qualify then .error .repeatedArgument else .ok { p with qualify := true }
  | "format", none => do
    let p ← p.settle
    pure { p with pending := .format none }
  | "format", some value => do
    let p ← p.settle
    p.setFormat value
  | "help", none => do
    let _ ← p.settle
    .error .helpWanted
  | "version", none => do
    let _ ← p.settle
    .error .versionWanted
  | "qualify", some _ | "help", some _ | "version", some _ => .error .unwantedValue
  | _, _ => .error .unknownArgument

def short (p : Partial) : List Char → Except UsageError Partial
  | 'h' :: _ => do
    let _ ← p.settle
    .error .helpWanted
  | 'V' :: _ => do
    let _ ← p.settle
    .error .versionWanted
  | _ => .error .unknownArgument

def place (p : Partial) (arg : String) : Except UsageError Partial :=
  if p.placed then .error .unknownArgument
  else do
    let p ← p.settle
    pure { p with pending := .input arg, placed := true }

def splitAtEquals (text : List Char) : String × Option String :=
  match text.dropWhile (· != '=') with
  | [] => (String.ofList text, none)
  | _ :: value => (String.ofList (text.takeWhile (· != '=')), some (String.ofList value))

def step (p : Partial) (arg : String) : Except UsageError Partial :=
  if p.escaped then p.place arg
  else
    match arg.toList with
    | ['-', '-'] => .ok { p with escaped := true }
    | '-' :: '-' :: text => p.long (splitAtEquals text).1 (splitAtEquals text).2
    | '-' :: c :: text => p.short (c :: text)
    | _ =>
      match p.pending with
      | .format none => .ok { p with pending := .format (some arg) }
      | _ => p.place arg

def finish (p : Partial) : Except UsageError Options := do
  let p ← p.settle
  match p.input with
  | some input => pure ⟨input, p.qualify, p.format.getD .text⟩
  | none => .error .missingArgument

end Partial

def parse (args : List String) : Except UsageError Options := do
  let p ← args.foldlM Partial.step {}
  p.finish

end Options

inductive RunError
  | unreadable (path : String)
  | noDocument (path : String)
  | meaning (error : MeaningError)
  deriving DecidableEq, Repr

namespace RunError

def noDocumentText : String := "failed to parse rewrite document"

def message : RunError → String
  | unreadable path => "failed to read " ++ path
  | noDocument path => "invalid document " ++ path ++ ": " ++ noDocumentText
  | meaning error => error.message

end RunError

/-- The report of a run whose input has some contents; without contents it cannot be read. -/
def Options.run (o : Options) (contents : Option String) : Except RunError Report :=
  match contents with
  | none => .error (.unreadable o.input)
  | some text =>
    match Document.parse? text with
    | none => .error (.noDocument o.input)
    | some d =>
      match d.report o.qualify with
      | .error error => .error (.meaning error)
      | .ok report => .ok report

end Respell

import Respell.CommandLine

/-!
The program: rewrites the type or name of the document that the command line names.
-/
namespace Respell

def helpText : String :=
  "Rewrite C++ types and names under template bindings and scope qualification\n\n" ++
  "Usage: cpprw [OPTIONS] <INPUT>\n\n" ++
  "Arguments:\n" ++
  "  <INPUT>  JSON document holding the type or name to rewrite\n\n" ++
  "Options:\n" ++
  "      --qualify          Spell names fully qualified as seen from the document's scope\n" ++
  "      --format <FORMAT>  Output format: text or json\n" ++
  "  -h, --help             Print help\n" ++
  "  -V, --version          Print version"

def versionText : String := "cpprw 0.1.0"

def UsageError.message : UsageError → String
  | unknownArgument => "error: unexpected argument found"
  | invalidValue => "error: invalid value"
  | missingArgument => "error: the following required arguments were not provided: <INPUT>"
  | repeatedArgument => "error: an argument cannot be used multiple times"
  | unwantedValue => "error: unexpected value"
  | helpWanted => helpText
  | versionWanted => versionText

def ReportedDiagnostic.line (d : ReportedDiagnostic) : String :=
  d.category.word ++ " CPPRW" ++ toString d.code ++ ": " ++ d.message

def readContents (path : String) : IO (Option String) := do
  try
    let text ← IO.FS.readFile path
    pure (some text)
  catch _ => pure none

end Respell

open Respell in
def main (args : List String) : IO UInt32 := do
  match Options.parse args with
  | .error .helpWanted => IO.println UsageError.helpWanted.message; pure 0
  | .error .versionWanted => IO.println UsageError.versionWanted.message; pure 0
  | .error error => IO.eprintln error.message; pure 2
  | .ok options =>
    let contents ← readContents options.input
    match options.run contents with
    | .ok report =>
      if options.format = .text then
        for d in report.diagnostics do IO.eprintln d.line
      IO.println (report.render options.format)
      pure 0
    | .error error => IO.eprintln ("Error: " ++ error.message); pure 1

import Respell.Document.Layout
import Respell.Json.Quoted
import Respell.Rewriting

/-!
Running a document: its subject is rewritten under its bindings and, where that is wanted, spelled
in full as seen from its scope. The report has both texts and the diagnostics.
-/
namespace Respell

structure ReportedDiagnostic where
  code : Nat
  category : Category
  message : String
  deriving DecidableEq, Repr

structure Report where
  input : String
  output : String
  diagnostics : List ReportedDiagnostic
  deriving DecidableEq, Repr

inductive OutputFormat
  | text
  | json
  deriving DecidableEq, Repr

instance : Vocabulary OutputFormat where
  all := [.text, .json]
  word
    | .text => "text"
    | .json => "json"

def Diagnostic.reported (d : Diagnostic) : ReportedDiagnostic := ⟨d.code, d.category, d.text⟩

namespace Job

/-- The environment of a job. The bindings come last, so they are asked first. -/
def environment (job : Job) (qualify : Bool) (bindings : BindingMap) (layout : Layout) :
    Environment :=
  let scope := (layout.scopeAt? job.scope).getD DeclarationTable.globalScope
  let providers := (if qualify then [Provider.qualifying] else []) ++ [.ofBindings bindings]
  (Environment.withScope scope ⟨some layout.table.resolver⟩).enterAll providers

def rewriteSubject (e : Environment) : Subject → Store → Report
  | .type tree, store =>
    let (t, store) := tree.intern store
    let (rewritten, session) := Rewriting.rewriteQual e t ⟨store, #[]⟩
    let spell := e.context.spell session.store
    ⟨session.store.typeText spell t, session.store.typeText spell rewritten,
      session.diagnostics.map (·.reported)⟩
  | .name tree, store =>
    let (n, store) := tree.intern store
    let (rewritten, session) := Rewriting.rewriteName e n ⟨store, #[]⟩
    let spell := e.context.spell session.store
    ⟨session.store.nameText spell n, session.store.nameText spell rewritten,
      session.diagnostics.map (·.reported)⟩

def report (job : Job) (qualify : Bool) : Report :=
  let (bindings, store) := BindingTree.internAll job.bindings .empty .initial
  let (layout, store) := Layout.ofForest job.declarations store
  rewriteSubject (job.environment qualify bindings layout) job.subject store

end Job

def Document.report (d : Document) (qualify : Bool) : Except MeaningError Report :=
  d.meaning.map fun job => job.report qualify

namespace ReportedDiagnostic

def json (d : ReportedDiagnostic) : String :=
  "    \x7b\n" ++
    "      \"code\": " ++ toString d.code ++ ",\n" ++
    "      \"category\": " ++ Json.quote d.category.word ++ ",\n" ++
    "      \"message\": " ++ Json.quote d.message ++ "\n" ++
    "    \x7d"

end ReportedDiagnostic

namespace Report

def json (r : Report) : String :=
  "\x7b\n" ++
    "  \"input\": " ++ Json.quote r.input ++ ",\n" ++
    "  \"output\": " ++ Json.quote r.output ++ ",\n" ++
    "  \"diagnostics\": " ++
    (if r.diagnostics.isEmpty then "[]"
      else "[\n" ++ ",\n".intercalate (r.diagnostics.map (·.json)) ++ "\n  ]") ++ "\n" ++
    "\x7d"

/-- The report as it is written: as text, only what came out of the rewrite. -/
def render (r : Report) : OutputFormat → String
  | .text => r.output
  | .json => r.json

end Report
end Respell

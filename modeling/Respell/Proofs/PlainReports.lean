import Respell.Proofs.Commuting
import Respell.Proofs.Reports

/-! What a document can reach. The subject of a document and its answers are written, so that none
of them has an undefined type, a type of an opaque shape or a handle without a node in it, and
neither has what they are put together to. Main statement: a report has no diagnostics, what it was
made from is plain before and after the rewrite, and its input depends on the written subject alone
(`plain_of_report`). -/
namespace Respell

open Store

/-! ### Runs of jobs -/

namespace Subject

def intern : Subject → Storing Target
  | .type tree => do
    let t ← tree.intern
    pure (.type t)
  | .name tree => do
    let n ← tree.intern
    pure (.name n)

end Subject

/-- What a store reads a type or a name as. -/
def Target.subject (s : Store) : Target → Subject
  | type t => .type (s.qualTree t)
  | name n => .name (s.nameTree n)

/-- What a job comes by on its way to a report: its subject with the store that it was interned in,
and what the subject was rewritten to with the session of the rewrite. -/
structure Job.Run where
  environment : Environment
  interned : Target × Store
  rewritten : Target × Session

namespace Job

def run (job : Job) (qualify : Bool) : Run :=
  let (environment, store) := job.setting qualify
  let interned := job.subject.intern store
  ⟨environment, interned, interned.1.rewrite environment ⟨interned.2, #[]⟩⟩

namespace Run

def report (run : Run) : Report :=
  let spell := run.environment.context.spell run.rewritten.2.store
  ⟨run.interned.1.text run.rewritten.2.store spell, run.rewritten.1.text run.rewritten.2.store spell,
    run.rewritten.2.diagnostics.map (·.reported)⟩

/-- The subject, as it was interned. -/
def before (run : Run) : Subject := run.interned.1.subject run.interned.2

/-- The subject, as it was rewritten. -/
def after (run : Run) : Subject := run.rewritten.1.subject run.rewritten.2.store

end Run

theorem report_run (job : Job) (qualify : Bool) : (job.run qualify).report = job.report qualify := by
  rw [Job.report_eq_rewriteSubject, run]
  cases job.subject <;> rfl

/-- A run comes by the subject as it is written, and by the subject with the answers of the document
put in. -/
theorem Means.run {job : Job} {d : Document} (means : job.Means d) (qualify : Bool) :
    (job.run qualify).before = job.subject ∧
      (job.run qualify).after = job.subject.substitute (d.answer job.bindings qualify) := by
  have answers := means.answers_setting qualify
  have plain := means.subject
  rw [Run.before, Run.after, Job.run]
  generalize job.setting qualify = setting at answers ⊢
  generalize job.subject = subject at plain ⊢
  obtain ⟨e, s⟩ := setting
  cases subject with
  | type tree =>
    obtain ⟨-, interned⟩ := @yields_intern True _ tree plain s s (.refl s)
    exact ⟨congrArg Subject.type interned.reads, congrArg Subject.type (rewrite_intern answers plain)⟩
  | name tree =>
    obtain ⟨-, interned⟩ := @yields_intern True _ tree plain s s (.refl s)
    exact ⟨congrArg Subject.name interned.reads, congrArg Subject.name (rewrite_intern answers plain)⟩

end Job

/-! ### Reports -/

theorem Subject.Plain.substitute {answer : Tree .name → Option (Tree .qualified)}
    (present : ∀ name tree, answer name = some tree → tree.Plain) {subject : Subject}
    (plain : subject.Plain) : (subject.substitute answer).Plain := by
  cases subject with
  | type tree => exact Tree.Plain.substitute present plain
  | name tree => exact Tree.Plain.substitute present plain

theorem Document.subjectMeaning_of_meaning {d : Document} {job : Job} (h : d.meaning = .ok job) :
    d.subjectMeaning = .ok job.subject := by
  obtain ⟨bindings, -, h⟩ := bind_eq_ok.mp h
  obtain ⟨forest, -, h⟩ := bind_eq_ok.mp h
  obtain ⟨subject, written, h⟩ := bind_eq_ok.mp h
  cases h
  exact written

/-- A report tells of nothing. Its texts are those of a plain subject, which the run of the job it
comes from had before and after the rewrite, and the first text is the same in the report of every
document with this subject. -/
theorem plain_of_report {d : Document} {qualify : Bool} {report : Report}
    (given : d.report qualify = .ok report) :
    report.diagnostics = [] ∧
      (∃ job, d.meaning = .ok job ∧ (job.run qualify).report = report ∧
        (job.run qualify).before.Plain ∧ (job.run qualify).after.Plain) ∧
      ∀ (other : Document) (qualify' : Bool) (report' : Report), other.type = d.type →
        other.name = d.name → other.report qualify' = .ok report' → report'.input = report.input := by
  obtain ⟨job, meaning, rfl⟩ := map_eq_ok.mp given
  have means := Job.means_of_meaning meaning
  obtain ⟨before, after⟩ := means.run qualify
  refine ⟨by rw [means.report], ⟨job, meaning, job.report_run qualify, ?_, ?_⟩, ?_⟩
  · rw [before]
    exact means.subject
  · rw [after]
    exact means.subject.substitute means.plain_of_answer
  · intro other qualify' report' sameType sameName given'
    obtain ⟨job', meaning', rfl⟩ := map_eq_ok.mp given'
    have means' := Job.means_of_meaning meaning'
    have subject : job'.subject = job.subject := by
      have own := Document.subjectMeaning_of_meaning meaning
      have others := Document.subjectMeaning_of_meaning meaning'
      rw [Document.subjectMeaning, sameType, sameName, ← Document.subjectMeaning, own] at others
      exact (Except.ok.inj others).symm
    rw [means.report, means'.report, subject]

/-- A constant of a type that is declared in a scope and bound to a pointer. -/
def boundInScope : Document where
  type := some (.qual (.named (.spelled "T")) [.const])
  bindings := [⟨.spelled "T", .qual (.pointer (.qual .void [])) []⟩]
  declarations := .cons ⟨"A", none⟩ (.cons ⟨"T", none⟩ .empty .empty) .empty
  scope := ["A"]

theorem plain_of_report_boundInScope :
    ∃ report, boundInScope.report true = .ok report ∧ report.diagnostics = [] ∧
      ∀ qualify report', { boundInScope with bindings := [] }.report qualify = .ok report' →
        report'.input = report.input := by
  have meaning : ∃ job, boundInScope.meaning = .ok job := ⟨_, rfl⟩
  obtain ⟨job, meaning⟩ := meaning
  have given : boundInScope.report true = .ok (job.report true) := by
    rw [Document.report, meaning]
    rfl
  obtain ⟨silent, -, same⟩ := plain_of_report given
  exact ⟨_, given, silent, fun qualify report' => same _ qualify report' rfl rfl⟩

end Respell

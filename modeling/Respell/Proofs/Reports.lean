import Respell.Proofs.Output
import Respell.Proofs.Walks

/-! Whole reports. No type of an opaque shape can be written in a document, so that a walk through
its subject passes none by. Main statement: the report of a job has the texts of its subject before
and after the substitution, and no diagnostics (`Job.Means.report`). -/
namespace Respell

open Store

variable {e : Environment} {s : Store}

/-! ### Walks through what can be written -/

def Store.PlainPiece (s : Store) : Piece → Prop
  | .type t => (s.unfold .type t).tree.Plain
  | .name n => (s.unfold .name n).tree.Plain

theorem plain_qualified {t : QualType} (plain : (s.unfold .qualified t).tree.Plain) :
    s.PlainPiece (.type t.type) := by
  rw [unfold_qual] at plain
  exact plain

theorem plain_optionalName {n : Option NameId} (plain : (s.unfold .optionalName n).tree.Plain) :
    ∀ piece ∈ Part.pieces .optionalName n, s.PlainPiece piece := by
  cases n with
  | none => exact List.forall_mem_nil _
  | some n =>
    rw [unfold_justName] at plain
    exact List.forall_mem_singleton.mpr plain

theorem plain_types {ts : List QualType} (plain : (s.unfold .types ts).tree.Plain) :
    ∀ piece ∈ Part.pieces .types ts, s.PlainPiece piece := by
  induction ts with
  | nil => exact List.forall_mem_nil _
  | cons first rest ih =>
    rw [unfold_consType] at plain
    exact List.forall_mem_cons.mpr ⟨plain_qualified plain.1, ih plain.2⟩

theorem plain_names {ns : List NameId} (plain : (s.unfold .names ns).tree.Plain) :
    ∀ piece ∈ Part.pieces .names ns, s.PlainPiece piece := by
  induction ns with
  | nil => exact List.forall_mem_nil _
  | cons first rest ih =>
    rw [unfold_consName] at plain
    exact List.forall_mem_cons.mpr ⟨plain.1, ih plain.2⟩

theorem plain_arguments {as : List Argument} (plain : (s.unfold .arguments as).tree.Plain) :
    ∀ piece ∈ Part.pieces .arguments as, s.PlainPiece piece := by
  induction as with
  | nil => exact List.forall_mem_nil _
  | cons a rest ih =>
    rw [unfold_consArgument] at plain
    obtain ⟨name, type, others⟩ := plain
    have first := plain_optionalName name
    have own : Part.pieces .arguments (a :: rest) = (Part.pieces .optionalName a.name ++
        [.type a.type.type]) ++ Part.pieces .arguments rest := rfl
    rw [own]
    exact List.forall_mem_append.mpr ⟨List.forall_mem_append.mpr
      ⟨first, List.forall_mem_singleton.mpr (plain_qualified type)⟩, ih others⟩

theorem plain_pieces (p : Part) (h : p.Handle) (plain : (s.unfold p h).tree.Plain) :
    ∀ piece ∈ p.pieces h, s.PlainPiece piece := by
  cases p with
  | type | name => exact List.forall_mem_singleton.mpr plain
  | qualified => exact List.forall_mem_singleton.mpr (plain_qualified plain)
  | optionalName => exact plain_optionalName plain
  | types => exact plain_types plain
  | names => exact plain_names plain
  | arguments => exact plain_arguments plain

theorem plain_nodeParts {n : TypeNode} (plain : (s.unfoldNode n).tree.Plain) :
    ∀ piece ∈ s.nodeParts n, s.PlainPiece piece := by
  cases n with
  | integer | float | declared => exact List.forall_mem_nil _
  | pointer | reference | array => exact List.forall_mem_singleton.mpr (plain_qualified plain)
  | named => exact List.forall_mem_singleton.mpr plain
  | memberPointer =>
    exact List.forall_mem_cons.mpr
      ⟨plain.1, List.forall_mem_singleton.mpr (plain_qualified plain.2)⟩
  | function signature =>
    rw [unfoldNode] at plain
    rw [nodeParts]
    cases shape : s.signature? signature with
    | none => exact List.forall_mem_nil _
    | some f =>
      simp only [shape] at plain
      obtain ⟨name, result, arguments⟩ := plain
      exact List.forall_mem_append.mpr ⟨plain_optionalName name,
        List.forall_mem_cons.mpr ⟨plain_qualified result, plain_arguments arguments⟩⟩

theorem plain_nameParts {n : NameNode} (plain : (s.unfoldName n).tree.Plain) :
    ∀ piece ∈ s.nameParts n, s.PlainPiece piece := by
  cases n with
  | identifier | destructor | operator => exact List.forall_mem_nil _
  | qualified =>
    exact List.forall_mem_cons.mpr ⟨plain.1, List.forall_mem_singleton.mpr plain.2⟩
  | template => exact plain_types plain
  | conversion => exact List.forall_mem_singleton.mpr (plain_qualified plain)
  | selector => exact plain_names plain

theorem plain_parts {piece : Piece} (plain : s.PlainPiece piece) :
    ∀ part ∈ s.parts piece, s.PlainPiece part := by
  cases piece with
  | type t =>
    cases t with
    | undefined | void | reserved => exact List.forall_mem_nil _
    | stored slot =>
      cases node : s.typeNode? slot with
      | none => simp [parts, node]
      | some n =>
        rw [PlainPiece, unfold_of_typeNode? node] at plain
        simpa [parts, node] using plain_nodeParts plain
  | name n =>
    cases node : s.nameNode? n with
    | none => simp [parts, node]
    | some m =>
      rw [PlainPiece, unfold_of_nameNode? node] at plain
      simpa [parts, node] using plain_nameParts plain

theorem stop?_ne_pass {piece : Piece} (plain : s.PlainPiece piece) (type : TypeId)
    (shape : OpaqueShape) : s.stop? piece ≠ some (.pass type shape) := by
  intro stop
  unfold stop? at stop
  split at stop
  · rename_i slot
    split at stop
    · cases stop
    · rename_i node
      rw [PlainPiece, unfold_of_typeNode? node] at plain
      exact plain
    · cases stop
  · cases stop

theorem Walk.diagnostics_eq_nil {pieces : List Piece} {visits : List Visit}
    (walk : Walk s pieces visits) (plain : ∀ piece ∈ pieces, s.PlainPiece piece) :
    (visits.map Visit.event).filterMap Event.diagnostic? = [] := by
  induction walk with
  | done => rfl
  | through _ _ ih | entered _ _ _ ih =>
    obtain ⟨first, rest⟩ := List.forall_mem_cons.mp plain
    exact ih (List.forall_mem_append.mpr ⟨plain_parts first, rest⟩)
  | passed stop => exact absurd stop (stop?_ne_pass (List.forall_mem_cons.mp plain).1 _ _)
  | answered _ _ _ ih => exact ih (List.forall_mem_cons.mp plain).2

/-! ### Subjects and jobs -/

/-- Rewriting what can be written leaves its handle as it was, and tells nothing. -/
theorem rewrite_interned (e : Environment) (s : Store) {p : Part} {tree : Tree p}
    (plain : tree.Plain) :
    (Rewriting.rewritePart e p (tree.intern s).1 ⟨(tree.intern s).2, #[]⟩).2.store.partTree p
        (tree.intern s).1 = tree ∧
      (Rewriting.rewritePart e p (tree.intern s).1 ⟨(tree.intern s).2, #[]⟩).2.diagnostics = [] := by
  obtain ⟨-, d⟩ : s.Extends (tree.intern s).2 ∧
      (tree.intern s).2.Denotes True tree (tree.intern s).1 :=
    yields_intern tree plain s s (.refl s)
  obtain ⟨visits, walk, answered, events⟩ := Rewriting.walks_rewritePart (e := e) p _ d.settled
    ⟨(tree.intern s).2, #[]⟩ (.refl _)
  have unfolded : ((tree.intern s).2.unfold p (tree.intern s).1).tree.Plain := by
    rw [tree_unfold, d.reads]
    exact plain
  refine ⟨(d.extend answered.grows).reads, ?_⟩
  rw [Session.diagnostics, events, List.filterMap_append,
    walk.diagnostics_eq_nil (plain_pieces p _ unfolded)]
  rfl

theorem rewriteSubject_input (e : Environment) (s : Store) {subject : Subject}
    (plain : subject.Plain) : (Job.rewriteSubject e subject s).input = subject.text ∧
      (Job.rewriteSubject e subject s).diagnostics = [] := by
  cases subject with
  | type tree =>
    obtain ⟨reads, silent⟩ := rewrite_interned e s plain
    constructor
    · change Tree.print _ (Store.qualTree _ _) "" = _
      exact (congrArg (fun tree : Tree .qualified => tree.print _ "") reads).trans
        (congrFun (Tree.print_of_plain _ noSpelling plain) "")
    · exact congrArg (List.map _) silent
  | name tree =>
    obtain ⟨reads, silent⟩ := rewrite_interned e s plain
    constructor
    · change Tree.print _ (Store.nameTree _ _) = _
      exact (congrArg (Tree.print _) reads).trans (Tree.print_of_plain _ noSpelling plain)
    · exact congrArg (List.map _) silent

theorem Job.Means.report {job : Job} {d : Document} (means : job.Means d) (qualify : Bool) :
    job.report qualify = ⟨job.subject.text,
      (job.subject.substitute (d.answer job.bindings qualify)).text, []⟩ := by
  have output := means.output qualify
  obtain ⟨e, s, same⟩ : ∃ e s, job.report qualify = Job.rewriteSubject e job.subject s :=
    ⟨_, _, rfl⟩
  obtain ⟨input, silent⟩ := rewriteSubject_input e s means.subject
  rw [same] at output ⊢
  rw [← input, ← output, ← silent]

end Respell

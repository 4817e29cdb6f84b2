import Respell.Proofs.Answers
import Respell.Proofs.Layout
import Respell.Report

/-! What documents come to. A document answers a name with the type of its last binding for it, or
else, where names are spelled in full, with the path of the innermost declaration that can be seen
from its scope. Main statement: the output of a document is the text of its subject, in which every
named type is replaced by what the document answers (`report_output`). -/
namespace Respell

open Store

/-- A name in full: texts nested to the left, the own text of the name last. -/
def Tree.nested : List String → String → Tree .name
  | [], name => .identifier name
  | first :: path, name =>
    (path ++ [name]).foldl (fun base member => .qualified base (.identifier member))
      (.identifier first)

def lastBinding (bindings : List BindingTree) (name : Tree .name) : Option (Tree .qualified) :=
  (bindings.reverse.find? fun b => b.name = name).map (·.type)

namespace Document

/-- The longest prefix of the scope at which there is a declaration of the name. -/
def visibleAt (d : Document) (name : String) : Option (List String) :=
  d.scope.inits.reverse.find? fun path => d.declarations.declares (·.trimmed) name path

/-- What replaces a named type: what its name is bound to or, where names are spelled in full, the
name of the declaration that can be seen from the scope. -/
def answer (d : Document) (bindings : List BindingTree) (qualify : Bool) (name : Tree .name) :
    Option (Tree .qualified) :=
  (lastBinding bindings name).or <|
    match qualify, name with
    | true, .identifier text =>
      (d.visibleAt text).map fun path => .qual (.named (.nested path text)) .none
    | _, _ => none

end Document

namespace Subject

def substitute (answer : Tree .name → Option (Tree .qualified)) : Subject → Subject
  | .type tree => .type (tree.substitute answer)
  | .name tree => .name (tree.substitute answer)

def text : Subject → String
  | .type tree => tree.print noSpelling ""
  | .name tree => tree.print noSpelling

def Plain : Subject → Prop
  | .type tree => tree.Plain
  | .name tree => tree.Plain

end Subject

/-! ### Bindings -/

/-- The names and types of the map are those of the bindings, in order. -/
def BindingMap.Denotes (m : BindingMap) (s : Store) (bindings : List BindingTree) : Prop :=
  List.Forall₂ (fun b (entry : NameId × QualType) =>
    s.Denotes True b.name entry.1 ∧ s.Denotes True b.type entry.2) bindings m.bindings

variable {s t : Store} {m : BindingMap} {bindings : List BindingTree}

theorem BindingMap.Denotes.extend (h : m.Denotes s bindings) (grows : s.Extends t) :
    m.Denotes t bindings :=
  h.imp fun _ _ both => ⟨both.1.extend grows, both.2.extend grows⟩

theorem yields_internAll {rest : List BindingTree}
    (plain : ∀ b ∈ rest, b.name.Plain ∧ b.type.Plain) (h : m.Denotes s bindings) :
    Yields id s (BindingTree.internAll rest m) fun t m' => m'.Denotes t (bindings ++ rest) := by
  induction rest generalizing s m bindings with
  | nil =>
    rw [List.append_nil]
    exact .pure fun t grows => h.extend grows
  | cons b rest ih =>
    obtain ⟨name, type⟩ := plain b List.mem_cons_self
    apply (@yields_intern True _ b.name name s).bind
    intro t n grows dn
    apply (@yields_intern True _ b.type type t).bind
    intro u q grows' dq
    have bound : (m.bind n q).Denotes u (bindings ++ [b]) := by
      apply List.rel_append (h.extend (grows.trans grows'))
      exact .cons ⟨dn.extend grows', dq⟩ .nil
    have all := ih (fun c hc => plain c (List.mem_cons_of_mem _ hc)) bound
    rw [List.append_assoc] at all
    exact all

theorem BindingMap.Denotes.get? (h : m.Denotes s bindings) {name : NameId}
    (grounded : (s.unfold .name name).Grounded s) :
    Option.Rel (fun tree type => s.Denotes True tree type) (lastBinding bindings (s.nameTree name))
      (m.get? name) := by
  have backwards := List.rel_reverse h
  rw [lastBinding, BindingMap.get?]
  generalize bindings.reverse = bs at backwards
  generalize m.bindings.reverse = entries at backwards
  induction backwards with
  | nil => exact .none
  | @cons b entry _ _ both _ ih =>
    rw [List.find?_cons, List.find?_cons]
    by_cases same : b.name = s.nameTree name
    · have handle : entry.1 = name := both.1.eq_of_grounded grounded same
      simp only [same, handle, decide_true, BEq.rfl, Option.map_some]
      exact .some both.2
    · have handle : entry.1 ≠ name := by
        rintro rfl
        exact same both.1.reads.symm
      simp only [same, decide_false, beq_eq_false_iff_ne.mpr handle]
      exact ih

theorem BindingMap.Denotes.answerTree (h : m.Denotes s bindings)
    (plain : ∀ b ∈ bindings, b.type.Plain) {name : NameId}
    (grounded : (s.unfold .name name).Grounded s) :
    s.answerTree ((m.get? name).getD .undefined) = lastBinding bindings (s.nameTree name) := by
  have found := h.get? grounded
  cases last : lastBinding bindings (s.nameTree name) with
  | none =>
    rw [last] at found
    cases none : m.get? name with
    | none => rfl
    | some type => exact absurd (none ▸ found) nofun
  | some tree =>
    rw [last] at found
    cases some : m.get? name with
    | none => exact absurd (some ▸ found) nofun
    | some type =>
      rw [some] at found
      cases found with
      | some d =>
        obtain ⟨b, hb, rfl⟩ := Option.map_eq_some_iff.mp last
        have present := (plain b (List.mem_reverse.mp (List.mem_of_find?_eq_some hb))).isUndefined
        rw [Option.getD_some, Store.answerTree, d.isUndefined, present, d.reads]
        rfl

/-! ### Full names -/

theorem qualifiedTree_of_forall₂ {texts : List String} {names : List NameId}
    (h : List.Forall₂ (fun text name => s.Denotes True (.identifier text) name) texts names)
    (base : Tree .name) :
    Provider.qualifiedTree s base names =
      texts.foldl (fun base member => .qualified base (.identifier member)) base := by
  induction h generalizing base with
  | nil => rfl
  | cons first _ ih =>
    have reads := first.reads
    rw [List.foldl_cons, ← ih, Provider.qualifiedTree, List.foldl_cons, reads]
    rfl

theorem qualifiedTree_nested {path : List String} {text : String} {base : NameId}
    {names : List NameId}
    (h : List.Forall₂ (fun text name => s.Denotes True (.identifier text) name) (path ++ [text])
      (base :: names)) :
    Provider.qualifiedTree s (s.partTree .name base) names = .nested path text := by
  cases path with
  | nil =>
    cases h with
    | cons first rest =>
      cases rest
      exact first.reads
  | cons outer path =>
    cases h with
    | cons first rest =>
      rw [qualifiedTree_of_forall₂ rest, first.reads]
      rfl

theorem qualifiedAnswerTree_eq {table : DeclarationTable} {paths : List (List String)}
    {placed : List Placed} (h : table.Records s paths placed) {q : Query} {scope : ScopeId}
    {path : List String} (from_ : q.scope = some scope) (known : paths[scope.index]? = some path)
    (context : q.context = ⟨some table.resolver⟩) (grounded : (s.unfold .name q.name).Grounded s) :
    Provider.qualifiedAnswerTree s q =
      match s.nameTree q.name with
      | .identifier text =>
        (DeclarationTable.innermost placed (.identifier text) path).map fun p =>
          .qual (.named (.nested p text)) .none
      | _ => none := by
  have look : q.context.lookup q.name scope = table.lookup q.name scope := by rw [context]; rfl
  have full (symbol : SymbolId) : q.context.qualifiedName symbol = table.qualifiedName symbol := by
    rw [context]
    rfl
  rw [Provider.qualifiedAnswerTree, from_]
  dsimp only
  rw [look]
  cases found : DeclarationTable.innermost placed (s.nameTree q.name) path with
  | none =>
    rw [h.lookup_eq_nil grounded known found]
    cases tree : s.nameTree q.name with
    | identifier text =>
      rw [tree] at found
      dsimp only
      rw [found]
      rfl
    | _ => rfl
  | some p =>
    obtain ⟨symbol, type, rest, d, meanings, here, same⟩ := h.lookup_eq_cons grounded known found
    rw [← same] at found ⊢
    rw [meanings]
    dsimp only
    rw [found, Option.map_some, Option.map_some, full]
    have chain := h.qualifiedName here
    cases names : table.qualifiedName symbol with
    | nil =>
      rw [names] at chain
      simpa using chain.length_eq
    | cons base more =>
      rw [names] at chain
      dsimp only
      rw [qualifiedTree_nested chain]

theorem innermost_placed {taken : List String} {written : Forest WrittenDeclaration}
    {forest : Forest DeclarationTree} (means : Means taken written forest) (text : String)
    (path : List String) :
    DeclarationTable.innermost forest.placed (.identifier text) path =
      path.inits.reverse.find? fun p => written.declares (·.trimmed) text p := by
  rw [DeclarationTable.innermost]
  congr
  funext p
  rw [← means.declares, Bool.eq_iff_iff, ← Forest.mem_placed_iff, DeclarationTable.declaresAt,
    List.any_eq_true]
  constructor
  · rintro ⟨⟨q, d⟩, hd, both⟩
    obtain ⟨rfl, same⟩ : q = p ∧ Tree.identifier d.name = .identifier text :=
      of_decide_eq_true both
    exact ⟨d, hd, Tree.identifier.inj same⟩
  · rintro ⟨d, hd, rfl⟩
    exact ⟨(p, d), hd, by simp⟩

/-! ### Whole documents -/

structure Job.Means (job : Job) (d : Document) : Prop where
  bindings : ∀ b ∈ job.bindings, b.name.Plain ∧ b.type.Plain
  declarations : Respell.Means [] d.declarations job.declarations
  scope : job.scope = d.scope
  opened : job.scope ∈ [] :: job.declarations.opened
  subject : job.subject.Plain

theorem plain_of_mapM {written : List WrittenBinding} {bindings : List BindingTree}
    (h : written.mapM WrittenBinding.meaning = .ok bindings) :
    ∀ b ∈ bindings, b.name.Plain ∧ b.type.Plain := by
  induction written generalizing bindings with
  | nil =>
    cases h
    simp
  | cons w rest ih =>
    rw [List.mapM_cons] at h
    obtain ⟨b, own, h⟩ := bind_eq_ok.mp h
    obtain ⟨bs, others, h⟩ := bind_eq_ok.mp h
    cases h
    obtain ⟨name, hname, own⟩ := bind_eq_ok.mp own
    obtain ⟨type, htype, own⟩ := bind_eq_ok.mp own
    cases own
    have first : name.Plain ∧ type.Plain :=
      ⟨Expr.plain_of_meaning hname, Expr.plain_of_meaning htype⟩
    exact List.forall_mem_cons.mpr ⟨first, ih others⟩

theorem plain_of_subjectMeaning {d : Document} {subject : Subject}
    (h : d.subjectMeaning = .ok subject) : subject.Plain := by
  unfold Document.subjectMeaning at h
  split at h
  · obtain ⟨tree, written, rfl⟩ := map_eq_ok.mp h
    exact Expr.plain_of_meaning written
  · obtain ⟨tree, written, rfl⟩ := map_eq_ok.mp h
    exact Expr.plain_of_meaning written
  · cases h
  · cases h

theorem Job.means_of_meaning {d : Document} {job : Job} (h : d.meaning = .ok job) :
    job.Means d := by
  obtain ⟨bindings, bound, h⟩ := bind_eq_ok.mp h
  obtain ⟨forest, there, h⟩ := bind_eq_ok.mp h
  obtain ⟨subject, written, h⟩ := bind_eq_ok.mp h
  cases h
  obtain ⟨declared, opened⟩ := means_of_scopeMeaning there
  exact ⟨plain_of_mapM bound, declared, rfl, opened, plain_of_subjectMeaning written⟩

theorem BindingMap.Denotes.types (h : m.Denotes s bindings) :
    ∀ entry ∈ m.bindings, s.Denotes True (s.partTree .qualified entry.2) entry.2 := by
  unfold BindingMap.Denotes at h
  generalize m.bindings = entries at h ⊢
  induction h with
  | nil => simp
  | cons both _ ih => exact List.forall_mem_cons.mpr ⟨both.2.self, ih⟩

def Job.answerTree (m : BindingMap) (qualify : Bool) (s : Store) (q : Query) :
    Option (Tree .qualified) :=
  (s.answerTree ((m.get? q.name).getD .undefined)).or
    (if qualify then Provider.qualifiedAnswerTree s q else none)

theorem Job.answers {job : Job} {qualify : Bool} {layout : Layout} {paths : List (List String)}
    {placed : List Placed} (bound : m.Denotes s bindings)
    (laid : layout.table.Records s paths placed) :
    (job.environment qualify m layout).Answers True s fun name =>
      Job.answerTree m qualify s ((job.environment qualify m layout).query name) := by
  intro name
  have top := Provider.answers_ofBindings bound.types
    ((job.environment qualify m layout).query name)
  cases qualify with
  | false => exact yields_askInTurn_cons top (yields_askInTurn_nil _)
  | true =>
    have below : Yields id s
        (Provider.qualifying.answer ((job.environment true m layout).query name)) fun t type =>
          Environment.Meets True
            (Provider.qualifiedAnswerTree s ((job.environment true m layout).query name)) t type := by
      apply Provider.yields_qualifiedAnswer
      · intro scope meaning found
        obtain ⟨declared, there, same⟩ := DeclarationTable.mem_lookup found
        obtain ⟨path, d, stands⟩ := laid.stands_of_mem there
        rw [same]
        exact stands.type.self
      · intro symbol n found
        obtain ⟨declared, there, rfl⟩ := DeclarationTable.mem_qualifiedName found
        obtain ⟨path, d, stands⟩ := laid.stands_of_mem there
        exact stands.name.self
    have both := yields_askInTurn_cons top (yields_askInTurn_cons below (yields_askInTurn_nil _))
    rw [Option.or_none] at both
    exact both

theorem Job.Means.answerTree_eq {job : Job} {d : Document} (means : job.Means d) {qualify : Bool}
    {layout : Layout} (bound : m.Denotes s job.bindings)
    (laid : layout.Records s ([] :: job.declarations.opened) job.declarations.placed)
    {name : NameId} (grounded : (s.unfold .name name).Grounded s) :
    Job.answerTree m qualify s ((job.environment qualify m layout).query name) =
      d.answer job.bindings qualify (s.nameTree name) := by
  have first := bound.answerTree (fun b hb => (means.bindings b hb).2) grounded
  unfold Job.answerTree Document.answer
  refine congrArg₂ Option.or first ?_
  cases qualify with
  | false => rfl
  | true =>
    obtain ⟨scope, found, known⟩ := laid.scopeAt? means.opened
    have from_ : ((job.environment true m layout).query name).scope = some scope := by
      change some ((layout.scopeAt? job.scope).getD _) = _
      rw [found, Option.getD_some]
    rw [if_pos rfl, qualifiedAnswerTree_eq laid.table from_ known rfl grounded]
    change (match s.nameTree name with
      | .identifier text => _
      | _ => _) = _
    cases s.nameTree name with
    | identifier text =>
      dsimp only
      rw [innermost_placed means.declarations, Document.visibleAt, means.scope]
    | _ => rfl

theorem plain_foldl {base : Tree .name} (plain : base.Plain) (texts : List String) :
    (texts.foldl (fun base member => Tree.qualified base (.identifier member)) base).Plain := by
  induction texts generalizing base with
  | nil => exact plain
  | cons text rest ih =>
    have both : (Tree.qualified base (.identifier text)).Plain := ⟨plain, trivial⟩
    exact ih both

theorem Tree.plain_nested (path : List String) (text : String) : (Tree.nested path text).Plain := by
  cases path with
  | nil => trivial
  | cons first path =>
    have outermost : (Tree.identifier first).Plain := trivial
    exact plain_foldl outermost (path ++ [text])

theorem Document.plain_of_answer {d : Document} {qualify : Bool}
    (plain : ∀ b ∈ bindings, b.type.Plain) {name : Tree .name} {tree : Tree .qualified}
    (h : d.answer bindings qualify name = some tree) : tree.Plain := by
  unfold Document.answer at h
  rcases Option.or_eq_some_iff.mp h with bound | ⟨-, visible⟩
  · obtain ⟨b, hb, rfl⟩ := Option.map_eq_some_iff.mp bound
    exact plain b (List.mem_reverse.mp (List.mem_of_find?_eq_some hb))
  · split at visible
    · obtain ⟨path, -, rfl⟩ := Option.map_eq_some_iff.mp visible
      exact Tree.plain_nested path _
    · cases visible

theorem rewrite_intern {e : Environment} {answer : Tree .name → Option (Tree .qualified)}
    (answers : ∀ t, s.Extends t → ∃ answerAt, e.Answers True t answerAt ∧
      ∀ name : NameId, (t.unfold .name name).Grounded t → answerAt name = answer (t.nameTree name))
    {p : Part} {tree : Tree p} (plain : tree.Plain) :
    (Rewriting.rewritePart e p (tree.intern s).1 ⟨(tree.intern s).2, #[]⟩).2.store.partTree _
        (Rewriting.rewritePart e p (tree.intern s).1 ⟨(tree.intern s).2, #[]⟩).1 =
      tree.substitute answer := by
  obtain ⟨grows, d⟩ : s.Extends (tree.intern s).2 ∧
      (tree.intern s).2.Denotes True tree (tree.intern s).1 :=
    yields_intern tree plain s s (.refl s)
  obtain ⟨answerAt, asked, agree⟩ := answers _ grows
  have grounded := d.grounded trivial
  have rewritten := Rewriting.yields_rewritePart asked p _ d.settled fun _ => grounded
  obtain ⟨-, r⟩ := rewritten ⟨(tree.intern s).2, #[]⟩ (.refl _)
  rw [r.reads, substitute_tree agree p _ grounded, tree_unfold, d.reads]

theorem rewriteSubject_output {e : Environment} {answer : Tree .name → Option (Tree .qualified)}
    (answers : ∀ t, s.Extends t → ∃ answerAt, e.Answers True t answerAt ∧
      ∀ name : NameId, (t.unfold .name name).Grounded t → answerAt name = answer (t.nameTree name))
    (present : ∀ name tree, answer name = some tree → tree.Plain) {subject : Subject}
    (plain : subject.Plain) :
    (Job.rewriteSubject e subject s).output = (subject.substitute answer).text := by
  cases subject with
  | type tree =>
    have reads := rewrite_intern answers plain
    have spelled := Tree.Plain.substitute present plain
    change Tree.print _ (Store.qualTree _ _) "" = _
    exact (congrArg (fun tree : Tree .qualified => tree.print _ "") reads).trans
      (congrFun (Tree.print_of_plain _ noSpelling spelled) "")
  | name tree =>
    have reads := rewrite_intern answers plain
    have spelled := Tree.Plain.substitute present plain
    change Tree.print _ (Store.nameTree _ _) = _
    exact (congrArg (Tree.print _) reads).trans (Tree.print_of_plain _ noSpelling spelled)

/-- The environment that the subject of a job is rewritten under, and the store of its bindings and
declarations. -/
def Job.setting (job : Job) (qualify : Bool) : Environment × Store :=
  let (bindings, store) := BindingTree.internAll job.bindings .empty .initial
  let (layout, store) := Layout.ofForest job.declarations store
  (job.environment qualify bindings layout, store)

theorem Job.report_eq_rewriteSubject (job : Job) (qualify : Bool) : job.report qualify =
    rewriteSubject (job.setting qualify).1 job.subject (job.setting qualify).2 :=
  rfl

theorem Job.Means.answers_setting {job : Job} {d : Document} (means : job.Means d) (qualify : Bool)
    (t : Store) (later : (job.setting qualify).2.Extends t) :
    ∃ answerAt, (job.setting qualify).1.Answers True t answerAt ∧
      ∀ name : NameId, (t.unfold .name name).Grounded t →
        answerAt name = d.answer job.bindings qualify (t.nameTree name) := by
  have empty : BindingMap.empty.Denotes .initial [] := .nil
  obtain ⟨-, bound⟩ := yields_internAll means.bindings empty .initial (.refl _)
  rw [List.nil_append] at bound
  unfold Job.setting at later ⊢
  generalize BindingTree.internAll job.bindings .empty .initial = interned at bound later ⊢
  obtain ⟨m, s⟩ := interned
  obtain ⟨grows, laid⟩ := Layout.yields_ofForest means.declarations s (.refl s)
  dsimp only [id] at bound grows laid later ⊢
  generalize Layout.ofForest job.declarations s = laying at grows laid later ⊢
  obtain ⟨layout, u⟩ := laying
  dsimp only at grows laid later ⊢
  have bound' := bound.extend (grows.trans later)
  have laid' : layout.Records t ([] :: job.declarations.opened) job.declarations.placed :=
    ⟨laid.table.extend later, laid.scopes⟩
  exact ⟨_, Job.answers bound' laid'.table, fun name grounded =>
    means.answerTree_eq bound' laid' grounded⟩

theorem Job.Means.plain_of_answer {job : Job} {d : Document} (means : job.Means d) {qualify : Bool}
    (name : Tree .name) (tree : Tree .qualified)
    (answered : d.answer job.bindings qualify name = some tree) : tree.Plain :=
  Document.plain_of_answer (fun b hb => (means.bindings b hb).2) answered

theorem Job.Means.output {job : Job} {d : Document} (means : job.Means d) (qualify : Bool) :
    (job.report qualify).output =
      (job.subject.substitute (d.answer job.bindings qualify)).text := by
  rw [Job.report_eq_rewriteSubject]
  exact rewriteSubject_output (means.answers_setting qualify) means.plain_of_answer means.subject

theorem Document.output_of_meaning {d : Document} {job : Job} (h : d.meaning = .ok job)
    (qualify : Bool) : (d.report qualify).map (·.output) =
      .ok (job.subject.substitute (d.answer job.bindings qualify)).text := by
  rw [Document.report, h]
  exact congrArg Except.ok ((Job.means_of_meaning h).output qualify)

end Respell

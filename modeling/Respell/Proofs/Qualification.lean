import Respell.Proofs.Ambiguity
import Respell.Proofs.Fusion

/-! Qualification by scopes is idempotent. In a table whose declared names are single identifiers,
the full name that qualification answers with is a single identifier that is answered by itself, or
it is qualified, and then it is not answered again. Main statement: rewriting what qualification
gave out, in the same scope of the same table, gives it back (`rewrite_qualified_again`). -/
namespace Respell

open Store DeclarationTable

variable {s : Store}

/-- An environment that qualifies by the table, as seen from the scope, and does nothing else. -/
def Environment.qualifyingBy (t : DeclarationTable) (scope : Option ScopeId) : Environment :=
  { providers := [.qualifying], scope, context := ⟨some t.resolver⟩ }

def Store.Single (s : Store) (name : NameId) : Prop :=
  ∃ text, s.Denotes True (.identifier text) name

/-- Every declared name is a single identifier whose text the store gave out. -/
def DeclarationTable.NamesSingle (t : DeclarationTable) (s : Store) : Prop :=
  ∀ declared ∈ t.symbols, s.Single declared.name

theorem Store.Single.self {name : NameId} (single : s.Single name) :
    s.Denotes True (s.partTree .name name) name := by
  obtain ⟨text, d⟩ := single
  exact d.self

/-! ### Full names as trees -/

/-- The tree of a full name: its names nested to the left, the own name of the declaration last. -/
def fullTree (s : Store) (outer : List NameId) (name : NameId) : Tree .name :=
  match outer with
  | [] => s.partTree .name name
  | base :: rest => Provider.qualifiedTree s (s.partTree .name base) (rest ++ [name])

theorem fullTree_cons (s : Store) (base name : NameId) (rest : List NameId) :
    fullTree s (base :: rest) name =
      .qualified (Provider.qualifiedTree s (s.partTree .name base) rest) (s.partTree .name name) := by
  rw [fullTree, Provider.qualifiedTree, List.foldl_append]
  rfl

theorem substitute_single {answer : Tree .name → Option (Tree .qualified)} {name : NameId}
    (single : s.Single name) :
    (s.partTree .name name).substitute answer = s.partTree .name name := by
  obtain ⟨text, d⟩ := single
  rw [d.reads, Tree.substitute]

/-- Names of which a full name is made hold no types, so that nothing in them is replaced. -/
theorem substitute_qualifiedTree {answer : Tree .name → Option (Tree .qualified)} {base : Tree .name}
    (first : base.substitute answer = base) {rest : List NameId} (single : ∀ n ∈ rest, s.Single n) :
    (Provider.qualifiedTree s base rest).substitute answer = Provider.qualifiedTree s base rest := by
  induction rest generalizing base with
  | nil => exact first
  | cons member rest ih =>
    refine ih ?_ fun n hn => single n (by simp [hn])
    rw [Tree.substitute, first, substitute_single (single member (by simp))]

theorem yields_typeInFull {base : NameId} {rest : List NameId}
    (single : ∀ n ∈ base :: rest, s.Single n) :
    Yields id s (typeInFull (base :: rest)) fun t type =>
      Environment.Meets True
        (some (.qual (.named (Provider.qualifiedTree s (s.partTree .name base) rest)) .none))
        t type := by
  have first := (single base (by simp)).self
  apply (Provider.yields_qualifiedName first (.refl s) fun n hn =>
    (single n (by simp [hn])).self).bind
  intro t name _ d
  apply (yields_named d).bind
  intro u type _ d
  have present : QualType.isUndefined ⟨type, .none⟩ = false := (denotes_qual .none d).isUndefined
  exact .pure fun v grows => ⟨present, denotes_qual .none (d.extend grows)⟩

/-! ### Answers -/

/-- An answer to a name is the type of a full name that ends in it. -/
def AnswersInFull (s : Store) (answer : NameId → Option (Tree .qualified)) : Prop :=
  ∀ name tree, answer name = some tree → s.Single name ∧ ∃ outer, (∀ n ∈ outer, s.Single n) ∧
    tree = .qual (.named (fullTree s outer name)) .none

section

variable {calls : List Call} (inside : Throughout (fun t c => c.Inside t) new calls)
  (single : (new.runAll calls).NamesSingle s) (scope : Option ScopeId)

include inside single

theorem yields_qualifying (name : NameId) : ∃ expected,
    Yields id s ((Environment.qualifyingBy (new.runAll calls) scope).ask name)
        (fun t reply => Environment.Meets True expected t reply.type) ∧
      ∀ tree, expected = some tree → s.Single name ∧ ∃ outer, (∀ n ∈ outer, s.Single n) ∧
        tree = .qual (.named (fullTree s outer name)) .none := by
  generalize query : (Environment.qualifyingBy (new.runAll calls) scope).query name = q
  have context : q = ⟨name, 1, scope, ⟨some (new.runAll calls).resolver⟩⟩ := query.symm
  suffices asked : ∃ expected,
      Yields id s (Provider.qualifying.answer q) (fun t type => Environment.Meets True expected t type) ∧
        ∀ tree, expected = some tree → s.Single name ∧ ∃ outer, (∀ n ∈ outer, s.Single n) ∧
          tree = .qual (.named (fullTree s outer name)) .none by
    obtain ⟨expected, yields, full⟩ := asked
    refine ⟨expected, ?_, full⟩
    have one := yields_askInTurn_cons yields (yields_askInTurn_nil q)
    rw [Option.or_none] at one
    rw [Environment.ask, query]
    exact one
  subst context
  cases scope with
  | none => exact ⟨none, .pure fun _ _ => rfl, by simp⟩
  | some scope =>
    cases found : (new.runAll calls).lookup name scope with
    | nil =>
      have silent : Provider.qualifying.answer
          ⟨name, 1, some scope, ⟨some (new.runAll calls).resolver⟩⟩ = pure .undefined := by
        simp only [Provider.qualifying, Provider.qualifiedAnswer, LookupContext.lookup, resolver,
          found]
      rw [silent]
      exact ⟨none, .pure fun _ _ => rfl, by simp⟩
    | cons meaning others =>
      obtain ⟨outer, alike⟩ := lookup_qualifiedName inside name scope
      obtain ⟨symbol, own, inFull⟩ := alike meaning (by simp [found])
      have answer := qualifying_of_first (r := (new.runAll calls).resolver) found own inFull 1
      have names : ∀ n ∈ outer ++ [name], s.Single n := by
        intro n hn
        obtain ⟨declared, there, rfl⟩ := mem_qualifiedName (inFull ▸ hn)
        exact single declared there
      refine ⟨some (.qual (.named (fullTree s outer name)) .none), ?_, ?_⟩
      · rw [answer]
        cases outer with
        | nil => exact yields_typeInFull names
        | cons base rest => exact yields_typeInFull names
      · rintro tree ⟨⟩
        exact ⟨names name (by simp), outer, fun n hn => names n (by simp [hn]), rfl⟩

theorem answers_qualifyingBy :
    (Environment.qualifyingBy (new.runAll calls) scope).Answers True s
        ((Environment.qualifyingBy (new.runAll calls) scope).answerTree s) ∧
      AnswersInFull s ((Environment.qualifyingBy (new.runAll calls) scope).answerTree s) := by
  constructor
  · refine Environment.answers_answerTree fun name => ?_
    obtain ⟨expected, yields, -⟩ := yields_qualifying inside single scope name
    exact ⟨expected, yields⟩
  · intro name tree answered
    obtain ⟨expected, yields, full⟩ := yields_qualifying inside single scope name
    refine full tree ?_
    rw [(yields s (.refl s)).2.eq_answerTree]
    exact answered

end

/-! ### Twice -/

section

variable {answer : NameId → Option (Tree .qualified)} (full : AnswersInFull s answer)

include full

theorem onlyIdentifiers_of_full : OnlyIdentifiers s answer := by
  intro name answered
  obtain ⟨tree, answered⟩ := Option.ne_none_iff_exists'.mp answered
  obtain ⟨⟨text, d⟩, -⟩ := full name tree answered
  have reads := d.reads
  cases node : s.nameNode? name with
  | none =>
    rw [← tree_unfold, unfold_of_nameNode?_eq_none node] at reads
    cases reads
  | some n =>
    rw [← tree_unfold, unfold_of_nameNode? node] at reads
    cases n with
    | identifier atom => exact ⟨atom, rfl⟩
    | _ => cases reads

/-- An answer by text goes through the answers unchanged. -/
theorem fuse_self {t : Store} (grows : s.Extends t) :
    Tree.fuse (byText t answer) (byText t answer) = byText t answer := by
  funext text
  cases answered : byText t answer text with
  | none => rw [Tree.fuse, answered]; rfl
  | some tree =>
    obtain ⟨⟨own, d⟩, outer, single, rfl⟩ := full _ tree answered
    -- The name that was asked for is the one of this text.
    obtain ⟨later, there⟩ : t.Extends _ ∧ Store.Denotes _ True _ _ :=
      yields_intern (.identifier text) trivial t t (.refl t)
    have same : Tree.identifier own = .identifier text :=
      (d.extend (grows.trans later)).reads.symm.trans there.reads
    have fixed : (Tree.qual (.named (fullTree s outer ((Tree.identifier text).intern t).1))
        .none).substitute (Tree.forIdentifiers (byText t answer)) =
          .qual (.named (fullTree s outer ((Tree.identifier text).intern t).1)) .none := by
      cases outer with
      | nil =>
        have alone : fullTree s [] ((Tree.identifier text).intern t).1 = .identifier text :=
          d.reads.trans same
        rw [alone] at answered ⊢
        simp only [Tree.substitute, Tree.forIdentifiers, answered, Option.getD_some, Tree.qualify,
          Qualifiers.none_union]
      | cons base rest =>
        rw [fullTree_cons]
        have first : (s.partTree .name base).substitute
            (Tree.forIdentifiers (byText t answer)) = s.partTree .name base :=
          substitute_single (single base (by simp))
        have members : ∀ n ∈ rest, s.Single n := fun n hn => single n (by simp [hn])
        have around := substitute_qualifiedTree first members
        have last : (s.partTree .name ((Tree.identifier text).intern t).1).substitute
            (Tree.forIdentifiers (byText t answer)) = _ := substitute_single ⟨own, d⟩
        simp only [Tree.substitute, Tree.forIdentifiers, Option.getD_none, around, last,
          Tree.qualify, Qualifiers.none_union]
    rw [Tree.fuse, answered, Option.map_some, fixed, Option.some_or]

end

namespace Rewriting

/-- Where answers go through the answers unchanged, what a first and a second rewrite give denotes
one tree, which a further substitution does not change. -/
theorem denotes_again {e : Environment} {answer : NameId → Option (Tree .qualified)}
    (answers : e.Answers True s answer) (only : OnlyIdentifiers s answer)
    (present : ∀ name tree, answer name = some tree → tree.isUndefined = false)
    (fixed : ∀ t, s.Extends t →
      Tree.fuse (byText t answer) (byText t answer) = byText t answer)
    {p : Part} {h : p.Handle} (settled : s.Settled p h) (grounded : (s.unfold p h).Grounded s) :
    Yields Session.store s
      (do
        let once ← rewritePart e p h
        let again ← rewritePart e p.rewritten once
        pure (once, again))
      fun t both => ∃ (f : Tree .name → Option (Tree .qualified)) (tree : Tree p.rewritten),
        t.Denotes True tree both.1 ∧ t.Denotes True (tree.substitute f) both.2 ∧
          tree.resubstitute f = tree := by
  apply (yields_rewritePart_forIdentifiers answers only settled grounded).bind
  intro t once grows first
  have now := first t (.refl t)
  apply (yields_rewritePart_forIdentifiers (answers.later grows) (only.extend grows) now.settled
    (now.grounded trivial)).bind
  intro u again more second
  refine .pure fun v later => ?_
  have denotes := first v (more.trans later)
  refine ⟨_, _, denotes, denotes.reads ▸ second v later, ?_⟩
  have fused := Tree.substitute_substitute (byText v answer)
    (fun text tree (answered : byText v answer text = some tree) => present _ tree answered)
    (v.partTree p h)
  rwa [fixed v (grows.trans (more.trans later))] at fused

def qualifyType (t : DeclarationTable) (scope : Option ScopeId) (type : QualType) :
    Rewriting QualType :=
  rewriteQual (.qualifyingBy t scope) type

def qualifyName (t : DeclarationTable) (scope : Option ScopeId) (name : NameId) :
    Rewriting NameId :=
  rewriteName (.qualifyingBy t scope) name

theorem single_firstName : firstNamed.2.Single firstName.1 := by
  have node := nameNode?_firstNamed
  have unfolds : firstNamed.2.unfold .name firstName.1 = .identifier firstAtom.1 "T" := by
    rw [unfold_of_nameNode? node, unfoldName, text_of_text? text?_firstNamed]
  refine ⟨"T", covers_of_node? (node?_of_nameNode? node), ?_, fun _ => ?_⟩
  · rw [← tree_unfold, unfolds]
    rfl
  · rw [unfolds]
    exact text?_firstNamed

/-- A name is declared in a scope that a declaration of the same name owns. -/
def declaredInside (name : NameId) : List Call :=
  [.declare globalScope name .undefined, .newScope globalScope (some ⟨0⟩),
    .declare ⟨1⟩ name ⟨.void, .none⟩]

end Rewriting
end Respell

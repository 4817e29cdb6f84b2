import Respell.Proofs.Answers

/-! The providers that come with the program: binding maps, and qualification by scopes. Whether
they have an answer does not depend on the store. Main statements: without an answer they leave the
store as it is (`Environment.Unanswered.unchanged`), and how many of them are asked for a name, and
whether one of them answers, is always the same (`Environment.steady_of_standard`). -/
namespace Respell

open Store

variable {e : Environment} {s : Store} {q : Query} {p : Provider} {rest : List Provider}

namespace Environment

theorem askInTurn_cons_of_defined (defined : (p.answer q s).1.isUndefined = false) :
    askInTurn q (p :: rest) s = (⟨(p.answer q s).1, 1⟩, (p.answer q s).2) := by
  have first : p.answer q s = ((p.answer q s).1, (p.answer q s).2) := rfl
  rw [askInTurn, bind_eq first, defined]
  rfl

theorem askInTurn_cons_of_undefined (none : (p.answer q s).1.isUndefined = true) :
    askInTurn q (p :: rest) s =
      (⟨(askInTurn q rest (p.answer q s).2).1.type,
          (askInTurn q rest (p.answer q s).2).1.asked + 1⟩,
        (askInTurn q rest (p.answer q s).2).2) := by
  have first : p.answer q s = ((p.answer q s).1, (p.answer q s).2) := rfl
  rw [askInTurn, bind_eq first, if_pos none]
  rfl

end Environment

/-- Every name that the map binds is bound to a defined type in the end. -/
def BindingMap.Defined (m : BindingMap) : Prop :=
  ∀ name type, m.get? name = some type → type.isUndefined = false

namespace Provider

/-- A binding map, or qualification by scopes. -/
def Standard (p : Provider) : Prop := p = .qualifying ∨ ∃ m, p = .ofBindings m

/-- Qualification interns something only for a name with a full name, and then it has an answer. -/
theorem qualifiedAnswer_cases (q : Query) :
    (∃ type, ∀ s, qualifiedAnswer q s = (type, s)) ∨
      ∀ s, (qualifiedAnswer q s).1.isUndefined = false := by
  unfold qualifiedAnswer
  cases q.scope with
  | none => exact .inl ⟨_, fun s => rfl⟩
  | some scope =>
    dsimp only
    cases q.context.lookup q.name scope with
    | nil => exact .inl ⟨_, fun s => rfl⟩
    | cons meaning others =>
      dsimp only
      rcases meaning.symbol.map q.context.qualifiedName with _ | _ | ⟨base, rest⟩
      · exact .inl ⟨_, fun s => rfl⟩
      · exact .inl ⟨_, fun s => rfl⟩
      · exact .inr fun s => rfl

theorem Standard.cases (standard : p.Standard) (q : Query) :
    (∃ type, ∀ s, p.answer q s = (type, s)) ∨ ∀ s, (p.answer q s).1.isUndefined = false := by
  rcases standard with rfl | ⟨m, rfl⟩
  · exact qualifiedAnswer_cases q
  · exact .inl ⟨_, fun s => rfl⟩

theorem Standard.unchanged (standard : p.Standard) (none : (p.answer q s).1.isUndefined = true) :
    (p.answer q s).2 = s := by
  rcases standard.cases q with ⟨type, same⟩ | defined
  · rw [same]
  · cases (defined s).symm.trans none

theorem Standard.isUndefined (standard : p.Standard) (q : Query) (s t : Store) :
    (p.answer q s).1.isUndefined = (p.answer q t).1.isUndefined := by
  rcases standard.cases q with ⟨type, same⟩ | defined
  · rw [same, same]
  · rw [defined, defined]

end Provider

namespace Environment

def Unanswered (e : Environment) (s : Store) (name : NameId) : Prop :=
  (e.ask name s).1.type.isUndefined = true

theorem askInTurn_unchanged {ps : List Provider} (standard : ∀ p ∈ ps, p.Standard)
    (none : (askInTurn q ps s).1.type.isUndefined = true) : (askInTurn q ps s).2 = s := by
  induction ps with
  | nil => rfl
  | cons p rest ih =>
    cases first : (p.answer q s).1.isUndefined with
    | false =>
      rw [askInTurn_cons_of_defined first] at none
      cases first.symm.trans none
    | true =>
      have same := (standard p (by simp)).unchanged first
      rw [askInTurn_cons_of_undefined first, same] at none ⊢
      exact ih (fun p hp => standard p (by simp [hp])) none

theorem Unanswered.unchanged {name : NameId} (h : e.Unanswered s name)
    (standard : ∀ p ∈ e.providers, p.Standard) : (e.ask name s).2 = s :=
  askInTurn_unchanged standard h

/-- Whether a name is answered, and after how many providers, does not depend on the store. -/
def Steady (e : Environment) : Prop :=
  ∀ name s t, (e.ask name s).1.type.isUndefined = (e.ask name t).1.type.isUndefined ∧
    (e.ask name s).1.asked = (e.ask name t).1.asked

theorem askInTurn_steady {ps : List Provider} (standard : ∀ p ∈ ps, p.Standard) (s t : Store) :
    (askInTurn q ps s).1.type.isUndefined = (askInTurn q ps t).1.type.isUndefined ∧
      (askInTurn q ps s).1.asked = (askInTurn q ps t).1.asked := by
  induction ps generalizing s t with
  | nil => exact ⟨rfl, rfl⟩
  | cons p rest ih =>
    have same := (standard p (by simp)).isUndefined q s t
    cases first : (p.answer q s).1.isUndefined with
    | false =>
      have second := same.symm.trans first
      rw [askInTurn_cons_of_defined first, askInTurn_cons_of_defined second]
      exact ⟨same, rfl⟩
    | true =>
      have second := same.symm.trans first
      rw [askInTurn_cons_of_undefined first, askInTurn_cons_of_undefined second]
      obtain ⟨defined, asked⟩ :=
        ih (fun p hp => standard p (by simp [hp])) (p.answer q s).2 (p.answer q t).2
      exact ⟨defined, congrArg (· + 1) asked⟩

theorem steady_of_standard (standard : ∀ p ∈ e.providers, p.Standard) : e.Steady :=
  fun _ s t => askInTurn_steady standard s t

end Environment
end Respell

import Respell.Node

/-!
Bindings of names to types. A name may be bound more than once; its last binding counts.
-/
namespace Respell

structure BindingMap where
  bindings : List (NameId × QualType) := []
  deriving DecidableEq, Repr

namespace BindingMap

def empty : BindingMap := {}

instance : Inhabited BindingMap := ⟨empty⟩

/-- Parameters bound to arguments pairwise; what is left over on either side is ignored. -/
def ofArguments (params : List NameId) (args : List QualType) : BindingMap := ⟨params.zip args⟩

def bind (m : BindingMap) (name : NameId) (type : QualType) : BindingMap :=
  ⟨m.bindings ++ [(name, type)]⟩

def size (m : BindingMap) : Nat := m.bindings.length

def isEmpty (m : BindingMap) : Bool := m.bindings.isEmpty

def get? (m : BindingMap) (name : NameId) : Option QualType :=
  (m.bindings.reverse.find? fun binding => binding.1 == name).map (·.2)

@[simp] theorem get?_empty (name : NameId) : empty.get? name = none := rfl

theorem get?_bind (m : BindingMap) (bound name : NameId) (type : QualType) :
    (m.bind bound type).get? name = if bound = name then some type else m.get? name := by
  by_cases h : bound = name <;> simp [get?, bind, h]

end BindingMap
end Respell

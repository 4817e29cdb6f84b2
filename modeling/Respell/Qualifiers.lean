import Respell.Vocabulary

/-!
Qualifiers: the specifiers written at one position of a type. A set of them is a word of sixteen
bits, so that equal sets are equal values, and union is bitwise.
-/
namespace Respell

inductive Qualifier
  | const | volatile | signed | unsigned | friend | auto | register | static
  | external | mutable | typedef | inline | virtual | explicit | deprecated | unavailable
  deriving DecidableEq, Repr

namespace Qualifier

def index : Qualifier → Fin 16
  | const => 0
  | volatile => 1
  | signed => 2
  | unsigned => 3
  | friend => 4
  | auto => 5
  | register => 6
  | static => 7
  | external => 8
  | mutable => 9
  | typedef => 10
  | inline => 11
  | virtual => 12
  | explicit => 13
  | deprecated => 14
  | unavailable => 15

instance : Vocabulary Qualifier where
  all := [const, volatile, signed, unsigned, friend, auto, register, static, external, mutable,
    typedef, inline, virtual, explicit, deprecated, unavailable]
  word
    | const => "const"
    | volatile => "volatile"
    | signed => "signed"
    | unsigned => "unsigned"
    | friend => "friend"
    | auto => "auto"
    | register => "register"
    | static => "static"
    | external => "extern"
    | mutable => "mutable"
    | typedef => "typedef"
    | inline => "inline"
    | virtual => "virtual"
    | explicit => "explicit"
    | deprecated => "deprecated"
    | unavailable => "unavailable"

theorem index_injective : ∀ {p q : Qualifier}, p.index = q.index → p = q := by
  intro p q h
  cases p <;> cases q <;> simp_all [index]

theorem index_surjective : ∀ i : Fin 16, ∃ q : Qualifier, q.index = i := by
  intro i
  have all : ∀ i : Fin 16, ((Vocabulary.all : List Qualifier).any fun q => q.index == i) = true := by
    decide
  obtain ⟨q, _, hq⟩ := List.any_eq_true.mp (all i)
  exact ⟨q, by simpa using hq⟩

end Qualifier

structure Qualifiers where
  /-- Bit `q.index` is set when `q` is in the set. -/
  bits : BitVec 16
  deriving DecidableEq, Repr

namespace Qualifiers

def none : Qualifiers := ⟨0⟩

def single (q : Qualifier) : Qualifiers := ⟨BitVec.twoPow 16 q.index⟩

def contains (s : Qualifiers) (q : Qualifier) : Bool := s.bits.getLsbD q.index

instance : EmptyCollection Qualifiers := ⟨none⟩

instance : Inhabited Qualifiers := ⟨none⟩

instance : Union Qualifiers := ⟨fun a b => ⟨a.bits ||| b.bits⟩⟩

/-- The qualifiers of a list, which may repeat them. -/
def ofList (qs : List Qualifier) : Qualifiers :=
  qs.foldl (fun s q => s ∪ single q) none

def toList (s : Qualifiers) : List Qualifier :=
  (Vocabulary.all : List Qualifier).filter s.contains

@[simp] theorem contains_none (q : Qualifier) : none.contains q = false := by
  simp [none, contains]

@[simp] theorem contains_union (a b : Qualifiers) (q : Qualifier) :
    (a ∪ b).contains q = (a.contains q || b.contains q) := by
  simp [contains, Union.union]

@[simp] theorem contains_single (p q : Qualifier) : (single p).contains q = decide (p = q) := by
  have h : q.index.val < 16 := q.index.isLt
  simp only [single, contains, BitVec.getLsbD_twoPow]
  by_cases hpq : p = q
  · subst hpq; simp
  · have : p.index.val ≠ q.index.val := fun e => hpq (Qualifier.index_injective (Fin.ext e))
    simp [hpq, this]

theorem ext_contains {a b : Qualifiers} (h : ∀ q, a.contains q = b.contains q) : a = b := by
  obtain ⟨a⟩ := a
  obtain ⟨b⟩ := b
  congr 1
  apply BitVec.eq_of_getLsbD_eq
  intro i hi
  obtain ⟨q, hq⟩ := Qualifier.index_surjective ⟨i, hi⟩
  have := h q
  simpa [contains, hq] using this

@[simp] theorem union_none (a : Qualifiers) : a ∪ none = a := ext_contains (by simp)

@[simp] theorem none_union (a : Qualifiers) : none ∪ a = a := ext_contains (by simp)

theorem union_assoc (a b c : Qualifiers) : a ∪ b ∪ c = a ∪ (b ∪ c) :=
  ext_contains fun q => by simp [Bool.or_assoc]

@[simp] theorem union_self (a : Qualifiers) : a ∪ a = a := ext_contains (by simp)

end Qualifiers
end Respell

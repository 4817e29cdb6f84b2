import Respell.Proofs.Acceptance
import Respell.Proofs.Reports

/-! The order of declarations and their types. Neither is seen in a report: where a name is declared
depends on the paths of names alone, and declarations are called by these paths. Main statement: a
document with its declarations rearranged, and declared with other types, has the same report, or
has none either (`report_rearranged`). -/
namespace Respell

namespace Forest

/-- Every declared type, at every depth, has a meaning. -/
def TypesMean : Forest WrittenDeclaration → Prop
  | empty => True
  | cons d members rest =>
    (∀ type ∈ d.type, ∃ tree, type.meaning = .ok tree) ∧ members.TypesMean ∧ rest.TypesMean

/-- The same declarations with siblings in any order, at any depth, and with any types that have a
meaning, or none. -/
inductive Rearranged : Forest WrittenDeclaration → Forest WrittenDeclaration → Prop
  | empty : Rearranged empty empty
  | cons {d d' : WrittenDeclaration} {members members' rest rest' : Forest WrittenDeclaration}
      (named : d'.name = d.name) (typed : ∀ type ∈ d'.type, ∃ tree, type.meaning = .ok tree)
      (inside : Rearranged members members') (after : Rearranged rest rest') :
      Rearranged (cons d members rest) (cons d' members' rest')
  | swap (d d' : WrittenDeclaration) (members members' rest : Forest WrittenDeclaration) :
      Rearranged (cons d members (cons d' members' rest)) (cons d' members' (cons d members rest))
  | trans {f g h : Forest WrittenDeclaration} (first : Rearranged f g) (second : Rearranged g h) :
      Rearranged f h

variable {f g : Forest WrittenDeclaration}

theorem Rearranged.refl (f : Forest WrittenDeclaration) (typed : f.TypesMean) : f.Rearranged f := by
  induction f with
  | empty => exact .empty
  | cons d members rest ihMembers ihRest =>
    exact .cons rfl typed.1 (ihMembers typed.2.1) (ihRest typed.2.2)

theorem ofList_siblings (f : Forest WrittenDeclaration) : ofList f.siblings = f := by
  induction f with
  | empty => rfl
  | cons d members rest _ ihRest => rw [siblings, ofList, ihRest]

theorem typesMean_ofList {l : List (WrittenDeclaration × Forest WrittenDeclaration)} :
    (ofList l).TypesMean ↔ ∀ sibling ∈ l,
      (∀ type ∈ sibling.1.type, ∃ tree, type.meaning = .ok tree) ∧ sibling.2.TypesMean := by
  induction l with
  | nil => simp [ofList, TypesMean]
  | cons first rest ih => rw [ofList, TypesMean, List.forall_mem_cons, ih, and_assoc]

/-- Any permutation of siblings is a rearrangement. -/
theorem rearranged_of_perm (typed : f.TypesMean) (order : f.siblings.Perm g.siblings) :
    f.Rearranged g := by
  rw [← ofList_siblings f] at typed ⊢
  rw [← ofList_siblings g]
  generalize f.siblings = l at typed order ⊢
  generalize g.siblings = l' at order ⊢
  induction order with
  | nil => exact .empty
  | cons sibling _ ih => exact .cons rfl typed.1 (.refl _ typed.2.1) (ih typed.2.2)
  | swap a b rest => exact .swap b.1 a.1 b.2 a.2 (ofList rest)
  | trans first _ ihFirst ihSecond =>
    refine .trans (ihFirst typed) (ihSecond ?_)
    rw [typesMean_ofList] at typed ⊢
    exact fun sibling mem => typed sibling (first.mem_iff.mpr mem)

theorem Rearranged.typesMean (h : f.Rearranged g) (typed : f.TypesMean) : g.TypesMean := by
  induction h with
  | empty => exact typed
  | cons _ own _ _ ihInside ihAfter => exact ⟨own, ihInside typed.2.1, ihAfter typed.2.2⟩
  | swap =>
    obtain ⟨first, firstInside, second, secondInside, rest⟩ := typed
    exact ⟨second, secondInside, first, firstInside, rest⟩
  | trans _ _ ihFirst ihSecond => exact ihSecond (ihFirst typed)

theorem Rearranged.symm (h : f.Rearranged g) (typed : f.TypesMean) : g.Rearranged f := by
  induction h with
  | empty => exact .empty
  | cons named _ _ _ ihInside ihAfter =>
    exact .cons named.symm typed.1 (ihInside typed.2.1) (ihAfter typed.2.2)
  | swap => exact .swap ..
  | trans first _ ihFirst ihSecond =>
    exact .trans (ihSecond (first.typesMean typed)) (ihFirst typed)

/-! ### What a rearrangement keeps -/

theorem Rearranged.isEmpty (h : f.Rearranged g) : g.isEmpty = f.isEmpty := by
  induction h with
  | empty | cons | swap => rfl
  | trans _ _ ihFirst ihSecond => exact ihSecond.trans ihFirst

theorem trimmed_eq_of_name {d d' : WrittenDeclaration} (named : d'.name = d.name) :
    d'.trimmed = d.trimmed := by
  rw [WrittenDeclaration.trimmed, WrittenDeclaration.trimmed, named]

theorem Rearranged.declares (h : f.Rearranged g) (name : String) (path : List String) :
    g.declares (·.trimmed) name path = f.declares (·.trimmed) name path := by
  induction h generalizing path with
  | empty => rfl
  | cons named _ _ _ ihInside ihAfter =>
    cases path <;> simp only [Forest.declares, trimmed_eq_of_name named, ihInside, ihAfter]
  | swap => cases path <;> simp only [Forest.declares, Bool.or_left_comm]
  | trans _ _ ihFirst ihSecond => exact (ihSecond path).trans (ihFirst path)

theorem Rearranged.scopeNames (h : f.Rearranged g) : f.scopeNames.Perm g.scopeNames := by
  induction h with
  | empty => exact .refl _
  | cons named _ inside _ _ ihAfter =>
    rw [scopeNames_cons, scopeNames_cons, inside.isEmpty, trimmed_eq_of_name named]
    split
    · exact ihAfter
    · exact ihAfter.cons _
  | swap d d' members members' rest =>
    simp only [scopeNames_cons]
    split <;> split <;> first | exact .refl _ | exact .swap ..
  | trans _ _ ihFirst ihSecond => exact ihFirst.trans ihSecond

theorem Rearranged.orderlyThroughout (h : f.Rearranged g) (orderly : f.OrderlyThroughout) :
    g.OrderlyThroughout := by
  induction h with
  | empty => exact orderly
  | cons named own inside after ihInside ihAfter =>
    obtain ⟨formed, fresh, inner, others⟩ := orderlyThroughout_cons.mp orderly
    refine orderlyThroughout_cons.mpr ⟨⟨named ▸ formed.1, ?_⟩, ?_, ihInside inner, ihAfter others⟩
    · exact fun type written => (Expr.succeeds_meaning type).mp (own type written)
    · rw [inside.isEmpty, trimmed_eq_of_name named, ← after.scopeNames.mem_iff]
      exact fresh
  | swap d d' members members' rest =>
    simp only [orderlyThroughout_cons, scopeNames_cons] at orderly ⊢
    obtain ⟨formed, fresh, inner, formed', fresh', inner', others⟩ := orderly
    refine ⟨formed', fun filled' => ?_, inner', formed, fun filled => ?_, inner, others⟩
    · have free' := fresh' filled'
      split
      · exact free'
      · rename_i filled
        have free := fresh (Bool.eq_false_iff.mpr filled)
        rw [if_neg (by simp [filled']), List.mem_cons, not_or] at free
        rw [List.mem_cons, not_or]
        exact ⟨Ne.symm free.1, free'⟩
    · have free := fresh filled
      split at free
      · exact free
      · exact fun mem => free (List.mem_cons_of_mem _ mem)
  | trans _ _ ihFirst ihSecond => exact ihSecond (ihFirst orderly)

/-- There are members at the path. -/
def Filled (f : Forest WrittenDeclaration) (path : List String) : Prop :=
  ∃ members, f.At path members ∧ members ≠ .empty

theorem filled_nil : f.Filled [] ↔ f.isEmpty = false := by
  constructor
  · rintro ⟨members, at_, filled⟩
    cases at_
    cases f with
    | empty => exact absurd rfl filled
    | cons => rfl
  · intro filled
    refine ⟨f, .here, ?_⟩
    rintro rfl
    cases filled

theorem filled_cons {d : WrittenDeclaration} {members rest : Forest WrittenDeclaration}
    {name : String} {path : List String} : (cons d members rest).Filled (name :: path) ↔
      (d.trimmed = name ∧ members.Filled path) ∨ rest.Filled (name :: path) := by
  simp only [Filled, cons_at_cons, or_and_right, exists_or, and_assoc, exists_and_left]

theorem Rearranged.filled (h : f.Rearranged g) (path : List String) :
    g.Filled path ↔ f.Filled path := by
  induction h generalizing path with
  | empty => exact .rfl
  | cons named _ _ _ ihInside ihAfter =>
    cases path with
    | nil => rw [filled_nil, filled_nil, Forest.isEmpty, Forest.isEmpty]
    | cons first path =>
      rw [filled_cons, filled_cons, trimmed_eq_of_name named, ihInside, ihAfter]
  | swap =>
    cases path with
    | nil => rw [filled_nil, filled_nil, Forest.isEmpty, Forest.isEmpty]
    | cons first path => simp only [filled_cons, or_left_comm]
  | trans _ _ ihFirst ihSecond => exact (ihSecond path).trans (ihFirst path)

end Forest

/-! ### Reports -/

theorem Document.Acceptable.rearranged {d : Document} {g : Forest WrittenDeclaration}
    (h : d.declarations.Rearranged g) (acceptable : d.Acceptable) :
    ({ d with declarations := g } : Document).Acceptable where
  oneSubject := acceptable.oneSubject
  type := acceptable.type
  name := acceptable.name
  bindings := acceptable.bindings
  declarations := h.orderlyThroughout acceptable.declarations
  scope := acceptable.scope.imp_right (h.filled d.scope).mpr

/-- What two documents that differ in their declarations mean differs in these alone. -/
theorem Document.meaning_declarations {d : Document} {g : Forest WrittenDeclaration} {job job' : Job}
    (h : d.meaning = .ok job) (h' : ({ d with declarations := g } : Document).meaning = .ok job') :
    job'.bindings = job.bindings ∧ job'.subject = job.subject := by
  obtain ⟨bindings, bound, h⟩ := bind_eq_ok.mp h
  obtain ⟨forest, -, h⟩ := bind_eq_ok.mp h
  obtain ⟨subject, written, h⟩ := bind_eq_ok.mp h
  obtain ⟨bindings', bound', h'⟩ := bind_eq_ok.mp h'
  obtain ⟨forest', -, h'⟩ := bind_eq_ok.mp h'
  obtain ⟨subject', written', h'⟩ := bind_eq_ok.mp h'
  cases h
  cases h'
  exact ⟨Except.ok.inj (bound'.symm.trans bound), Except.ok.inj (written'.symm.trans written)⟩

theorem Document.answer_rearranged {d : Document} {g : Forest WrittenDeclaration}
    (h : d.declarations.Rearranged g) :
    ({ d with declarations := g } : Document).answer = d.answer := by
  funext bindings qualify name
  unfold Document.answer Document.visibleAt
  simp only [h.declares]

theorem Document.report_of_rearranged {d : Document} {g : Forest WrittenDeclaration}
    (h : d.declarations.Rearranged g) {qualify : Bool} {report : Report}
    (given : d.report qualify = .ok report) :
    ({ d with declarations := g } : Document).report qualify = .ok report := by
  obtain ⟨job, meant, rfl⟩ := map_eq_ok.mp given
  have acceptable : d.Acceptable := Document.succeeds_meaning.mp ⟨job, meant⟩
  obtain ⟨job', meant'⟩ := Document.succeeds_meaning.mpr (acceptable.rearranged h)
  refine map_eq_ok.mpr ⟨job', meant', ?_⟩
  obtain ⟨bindings, subject⟩ := Document.meaning_declarations meant meant'
  rw [(Job.means_of_meaning meant).report, (Job.means_of_meaning meant').report, bindings, subject,
    Document.answer_rearranged h]

/-- Rearranging declarations, and declaring them with other types, changes neither whether there is
a report nor anything in it. -/
theorem report_rearranged {d : Document} {g : Forest WrittenDeclaration}
    (typed : d.declarations.TypesMean) (h : d.declarations.Rearranged g) (qualify : Bool)
    (report : Report) : ({ d with declarations := g } : Document).report qualify = .ok report ↔
      d.report qualify = .ok report :=
  ⟨@Document.report_of_rearranged { d with declarations := g } d.declarations (h.symm typed) _ _,
    Document.report_of_rearranged h⟩

/-- A subject that is declared in a scope next to another declaration. -/
def besideOther : Document where
  type := some (.qual (.named (.spelled "x")) [])
  declarations := .cons ⟨"A", none⟩ (.cons ⟨"x", none⟩ .empty .empty)
    (.cons ⟨"B", some (.qual .void [])⟩ .empty .empty)
  scope := ["A"]

/-- The same declarations the other way round, and with the one type in another place. -/
def otherFirst : Forest WrittenDeclaration :=
  .cons ⟨"B", none⟩ .empty
    (.cons ⟨"A", none⟩ (.cons ⟨"x", some (.qual .void [])⟩ .empty .empty) .empty)

def besideOtherAgain : Document := { besideOther with declarations := otherFirst }

theorem report_rearranged_besideOther :
    (besideOtherAgain.report true).toOption = (besideOther.report true).toOption := by
  have void : ∀ type ∈ some (Expr.qual .void []), ∃ tree, type.meaning = .ok tree := by
    rintro _ ⟨⟩
    exact ⟨_, rfl⟩
  have untyped : ∀ type ∈ (none : Option (Expr .qualified)), ∃ tree, type.meaning = .ok tree := by
    simp
  have typed : besideOther.declarations.TypesMean :=
    ⟨untyped, ⟨untyped, trivial, trivial⟩, ⟨void, trivial, trivial⟩⟩
  have retyped : besideOther.declarations.Rearranged
      (.cons ⟨"A", none⟩ (.cons ⟨"x", some (.qual .void [])⟩ .empty .empty)
        (.cons ⟨"B", none⟩ .empty .empty)) :=
    .cons rfl untyped (.cons rfl void .empty .empty) (.cons rfl untyped .empty .empty)
  have both : ∀ report, besideOtherAgain.report true = .ok report ↔
      besideOther.report true = .ok report :=
    report_rearranged typed (retyped.trans (.swap ..)) true
  cases before : besideOther.report true with
  | ok report => rw [(both report).mpr before]
  | error =>
    cases after : besideOtherAgain.report true with
    | ok report => cases before.symm.trans ((both report).mp after)
    | error => rfl

end Respell

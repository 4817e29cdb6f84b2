import Respell.Proofs.Drafts
import Respell.Proofs.Persistence

/-! Rewriting is simultaneous substitution. Main statements: on an interner that is a store's, with
sources whose answers are settled there, rewriting ends for every handle, and the tree of its result
is the tree of the handle with the answers put in, all at once (`substitutes_of_settled`); a type
that mentions an entry which only comes later may be rewritten to something else. -/
namespace Respell

open Store

/-! ### Interners that are a store's -/

theorem Store.unfold_toInterner_qualified (s : Store) (type : QualType) :
    s.toInterner.unfold .qualified type = s.unfold .qualified type := by
  rcases Rewriting.settled_or_typeNode?_eq_none s type.type with settled | ⟨slot, stored, node⟩
  · exact unfold_of_extends (.refl _) .qualified type settled
  · rw [unfold_qual, stored, unfold_of_typeNode?_eq_none node]
    simp only [Interner.unfold, Interner.Readings.part, Interner.readings, stored, node]

theorem Store.unfold_toInterner_name (s : Store) (name : NameId) :
    s.toInterner.unfold .name name = s.unfold .name name := by
  rcases Rewriting.settled_or_nameNode?_eq_none s name with settled | node
  · exact unfold_of_extends (.refl _) .name name settled
  · rw [unfold_of_nameNode?_eq_none node]
    simp only [Interner.unfold, Interner.Readings.part, Interner.readings, node]

namespace Draft

/-- What the sources answer a name with, as a tree. -/
def answerTree (e : Sources) (x : Draft) (name : NameId) : Option (Tree .qualified) :=
  let (reply, y) := e.ask name x
  if reply.type.isUndefined then none else some (y.interner.unfold .qualified reply.type).tree

/-- Rewriting ends for every handle, in calls nested no deeper than there are entries, and the tree
of its result is the tree of the handle with the answers of the sources put in, all at once. -/
def Substitutes (e : Sources) (x : Draft) : Prop :=
  (∀ type : QualType, ∃ result y,
    (∀ depth, x.interner.nodes.size < depth →
      (Registry.nested e.ask depth).qual type x = some (result, y)) ∧
    (y.interner.unfold .qualified result).tree =
      (x.interner.unfold .qualified type).substitute (x.answerTree e)) ∧
  ∀ name : NameId, ∃ result y,
    (∀ depth, x.interner.nodes.size < depth →
      (Registry.nested e.ask depth).name name x = some (result, y)) ∧
    (y.interner.unfold .name result).tree =
      (x.interner.unfold .name name).substitute (x.answerTree e)

theorem answerTree_draft {e : Sources} {x : Session} (settled : e.Settled x.store) :
    answerTree e x.draft = e.environment.answerTree x.store := by
  funext name
  have mirrored := (Rewriting.mirrors_askInTurn (q := e.environment.query name) settled rfl
    (fun _ mem => mem) x _ _ (.refl _) rfl).1
  have asked : e.ask name x.draft = _ := Option.some.inj mirrored
  rw [answerTree, asked, Environment.answerTree, Store.answerTree, ← tree_unfold,
    ← unfold_toInterner_qualified]
  rfl

theorem substitutes_of_settled (e : Sources) (x : Session) (settled : e.Settled x.store) :
    Substitutes e x.draft := by
  obtain ⟨types, names⟩ := Rewriting.rewrite_eq_substitute e.environment x settled.shipped
  constructor
  · intro type
    refine ⟨_, _, fun depth deep => (Rewriting.nested_draft settled deep).1 type, ?_⟩
    have given : x.draft.interner.unfold .qualified type = _ :=
      x.store.unfold_toInterner_qualified type
    have result := (Rewriting.rewriteQual e.environment type x).2.store.unfold_toInterner_qualified
      (Rewriting.rewriteQual e.environment type x).1
    rw [answerTree_draft settled, given, ← types type]
    exact (congrArg Unfolding.tree result).trans (tree_unfold _ .qualified _)
  · intro name
    refine ⟨_, _, fun depth deep => (Rewriting.nested_draft settled deep).2 name, ?_⟩
    have given : x.draft.interner.unfold .name name = _ := x.store.unfold_toInterner_name name
    have result := (Rewriting.rewriteName e.environment name x).2.store.unfold_toInterner_name
      (Rewriting.rewriteName e.environment name x).1
    rw [answerTree_draft settled, given, ← names name]
    exact (congrArg Unfolding.tree result).trans (tree_unfold _ .name _)

def voidForFirst : Sources := { stack := [.bindings ⟨[(Rewriting.firstName.1, ⟨.void, .none⟩)]⟩] }

theorem settled_voidForFirst (s : Store) : voidForFirst.Settled s := by
  refine ⟨?_, (fun _ _ _ h => nomatch h), (fun _ _ h => nomatch h)⟩
  intro m mem b hb
  obtain rfl := Source.bindings.inj (List.mem_singleton.mp mem)
  rw [List.mem_singleton.mp hb]
  exact Nat.zero_le _

def firstDraft : Draft := ⟨Rewriting.firstNamed.2.toInterner, #[]⟩

theorem substitutes_of_settled_void :
    ∃ (result : QualType) (y : Draft),
      (∀ depth, firstDraft.interner.nodes.size < depth →
        (Registry.nested voidForFirst.ask depth).qual ⟨.stored Rewriting.firstNamed.1, .single .const⟩
          firstDraft = some (result, y)) ∧
      (y.interner.unfold .qualified result).tree = .qual .void (.single .const) := by
  have settled := settled_voidForFirst Rewriting.firstNamed.2
  obtain ⟨result, y, ends, same⟩ := (substitutes_of_settled voidForFirst
    ⟨Rewriting.firstNamed.2, #[]⟩ settled).1 ⟨.stored Rewriting.firstNamed.1, .single .const⟩
  refine ⟨result, y, ends, same.trans ?_⟩
  have given : (Session.draft ⟨Rewriting.firstNamed.2, #[]⟩).interner.unfold .qualified
      ⟨.stored Rewriting.firstNamed.1, .single .const⟩ = _ :=
    Rewriting.firstNamed.2.unfold_toInterner_qualified _
  rw [given, Rewriting.unfold_firstNamed, answerTree_draft settled, Unfolding.substitute,
    Unfolding.substitute]
  have answer : voidForFirst.environment.answerTree Rewriting.firstNamed.2 Rewriting.firstName.1 = _ :=
    Rewriting.answerTree_voidForName
  simp only [answer, Option.getD_some, Tree.qualify, Qualifiers.none_union]

/-- A pointer to a member of `operator T *`, of a type that has not come yet: it comes to be `int *`
when `T` is rewritten to `int` on the way to it. -/
def ahead : List Request :=
  [.name (.operator .plus), .type (.named ⟨.entry 0⟩), .type (.integer .int),
    .type (.pointer ⟨.stored (.entry 1), .none⟩),
    .name (.conversion ⟨.stored (.entry 3), .none⟩),
    .type (.memberPointer ⟨.entry 4⟩ ⟨.stored (.entry 6), .none⟩)]

def draftAhead : Draft := ⟨(Interner.initial.serveAll ahead).2, #[]⟩

def intAhead : Sources :=
  { stack := [.bindings ⟨[(⟨.entry 0⟩, ⟨.stored (.entry 2), .none⟩)]⟩] }

def nodesAhead : Array Node := (ahead.filterMap Request.node?).toArray

def nodesRewritten : Array Node :=
  nodesAhead ++ #[.type (.pointer ⟨.stored (.entry 2), .none⟩),
    .name (.conversion ⟨.stored (.entry 6), .none⟩),
    .type (.memberPointer ⟨.entry 7⟩ ⟨.stored (.entry 6), .none⟩)]

theorem nodes_draftAhead : draftAhead.interner.nodes = nodesAhead := by decide +kernel

theorem rewrite_ahead :
    ((Registry.nested intAhead.ask 7).qual ⟨.stored (.entry 5), .none⟩ draftAhead).map
        (fun r => (r.1, r.2.interner.nodes)) =
      some (⟨.stored (.entry 8), .none⟩, nodesRewritten) := by
  decide +kernel

theorem unfold_ahead {i : Interner} (nodes : i.nodes = nodesAhead) :
    ∃ owner, i.unfold .qualified ⟨.stored (.entry 5), .none⟩ =
      .qual (.memberPointer owner (.qual (.unknown (.stored (.entry 6))) .none)) .none := by
  obtain ⟨texts, _, nodup⟩ := i
  subst nodes
  exact ⟨_, rfl⟩

theorem unfold_rewritten {i : Interner} (nodes : i.nodes = nodesRewritten) :
    ∃ owner, i.unfold .qualified ⟨.stored (.entry 8), .none⟩ =
      .qual (.memberPointer owner (.qual (.pointer (.qual (.integer .int) .none)) .none)) .none := by
  obtain ⟨texts, _, nodup⟩ := i
  subst nodes
  exact ⟨_, rfl⟩

theorem not_substitutes_ahead : ¬ Substitutes intAhead draftAhead := by
  rintro ⟨types, -⟩
  obtain ⟨result, y, ends, same⟩ := types ⟨.stored (.entry 5), .none⟩
  have size : draftAhead.interner.nodes.size = 6 := by rw [nodes_draftAhead]; rfl
  have run := rewrite_ahead
  rw [ends 7 (by omega)] at run
  obtain ⟨rfl, nodes⟩ := Prod.mk.inj (Option.some.inj run)
  obtain ⟨owner, before⟩ := unfold_ahead nodes_draftAhead
  obtain ⟨owner', after⟩ := unfold_rewritten nodes
  rw [before, after] at same
  simp [Unfolding.tree, Unfolding.substitute, Tree.qualify] at same

end Draft
end Respell

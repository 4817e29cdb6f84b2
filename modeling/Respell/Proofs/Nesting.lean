import Mathlib.Logic.Relation
import Respell.Calls
import Respell.Proofs.Rewriting

/-! How deep a rewrite nests its calls. The entries of a store refer to older entries only, and a
rewrite nests its calls along these references while it adds entries itself. The rewriting functions
are compared with ones that know nothing of ranks and give up where calls nest too deep. Main
statements: no entry leads back to itself (`Store.acyclic`), and calls nest no deeper than there are
entries when the rewrite begins, whatever the providers answer (`Rewriting.nested_eq`). -/
namespace Respell

open Relation

/-! ### What an entry refers to -/

def TypeId.slots : TypeId → List Slot
  | stored slot => [slot]
  | _ => []

namespace Node

/-- The types, names, lists and function shapes that a node mentions. -/
def slots : Node → List Slot
  | type (.pointer element) => element.type.slots
  | type (.reference element) => element.type.slots
  | type (.array element _) => element.type.slots
  | type (.memberPointer owner element) => owner.slot :: element.type.slots
  | type (.named spelled) => [spelled.slot]
  | type (.function shape) => [shape.slot]
  | type (.integer _) | type (.float _) | type (.declared _ _) => []
  | name (.qualified base member) => [base.slot, member.slot]
  | name (.template _ args) => [args.slot]
  | name (.conversion target) => target.type.slots
  | name (.selector parts _) => [parts.slot]
  | name (.identifier _) | name (.destructor _) | name (.operator _) => []
  | typeList types => types.flatMap fun t => t.type.slots
  | nameList names => names.map (·.slot)
  | signature f =>
    f.name.toList.map (·.slot) ++ f.result.type.slots ++
      f.arguments.flatMap fun a => a.name.toList.map (·.slot) ++ a.type.type.slots

theorem rank_eq_of_mem_slots {t : TypeId} {slot : Slot} (h : slot ∈ t.slots) :
    slot.rank = t.rank := by
  cases t with
  | stored => rw [List.mem_singleton.mp h, TypeId.rank]
  | _ => cases h

theorem rank_eq_of_mem_optional {n : Option NameId} {slot : Slot}
    (h : slot ∈ n.toList.map (·.slot)) : slot.rank = optionalRank n := by
  cases n with
  | none => cases h
  | some n => rw [List.mem_singleton.mp h, optionalRank]

/-- What a node mentions is within its rank. -/
theorem rank_le_of_mem_slots {n : Node} {slot : Slot} (h : slot ∈ n.slots) :
    slot.rank ≤ n.rank := by
  have within {r : Nat} (same : slot.rank = r) (listed : r ∈ n.ranks) : slot.rank ≤ n.rank :=
    same ▸ le_maxRank listed
  cases n with
  | type node =>
    cases node with
    | pointer | reference | array =>
      exact within (rank_eq_of_mem_slots h) (by simp [ranks, QualType.rank])
    | memberPointer owner element =>
      rcases List.mem_cons.mp h with rfl | h
      · exact within rfl (by simp [ranks])
      · exact within (rank_eq_of_mem_slots h) (by simp [ranks, QualType.rank])
    | named | function =>
      rw [List.mem_singleton.mp h] at within ⊢
      exact within rfl (by simp [ranks])
    | integer | float | declared => cases h
  | name node =>
    cases node with
    | qualified base member =>
      simp only [slots, List.mem_cons, List.not_mem_nil, or_false] at h
      rcases h with rfl | rfl
      · exact within rfl (by simp [ranks])
      · exact within rfl (by simp [ranks])
    | template | selector =>
      rw [List.mem_singleton.mp h] at within ⊢
      exact within rfl (by simp [ranks])
    | conversion => exact within (rank_eq_of_mem_slots h) (by simp [ranks, QualType.rank])
    | identifier | destructor | operator => cases h
  | typeList types =>
    obtain ⟨t, ht, h⟩ := List.mem_flatMap.mp h
    exact within (rank_eq_of_mem_slots h) (List.mem_map_of_mem (f := (·.rank)) ht)
  | nameList names =>
    obtain ⟨n, hn, rfl⟩ := List.mem_map.mp h
    exact within rfl (List.mem_map_of_mem (f := (·.slot.rank)) hn)
  | signature f =>
    simp only [slots, List.mem_append] at h
    rcases h with (h | h) | h
    · exact within (rank_eq_of_mem_optional h) (by simp [ranks])
    · exact within (rank_eq_of_mem_slots h) (by simp [ranks, QualType.rank])
    · obtain ⟨a, ha, h⟩ := List.mem_flatMap.mp h
      have argument : a.rank ≤ (Node.signature f).rank :=
        le_maxRank (by simpa [ranks] using .inr (.inr ⟨a, ha, rfl⟩))
      rcases List.mem_append.mp h with h | h
      · rw [rank_eq_of_mem_optional h]
        exact Nat.le_trans (Nat.le_max_left ..) argument
      · rw [rank_eq_of_mem_slots h]
        exact Nat.le_trans (Nat.le_max_right ..) argument

end Node

namespace Store

variable {s : Store} {a b : Slot}

/-- The entry of the one handle mentions the other handle. -/
def Refers (s : Store) (a b : Slot) : Prop := ∃ n, s.node? a = some n ∧ b ∈ n.slots

/-- No way of references comes back to where it began. -/
def Acyclic (s : Store) : Prop := ∀ a, ¬ TransGen s.Refers a a

theorem Refers.rank_lt (h : s.Refers a b) : b.rank < a.rank := by
  obtain ⟨n, node, mentioned⟩ := h
  exact Nat.lt_of_le_of_lt (Node.rank_le_of_mem_slots mentioned) (rank_lt_of_node? node)

theorem rank_lt_of_transGen (way : TransGen s.Refers a b) : b.rank < a.rank := by
  induction way with
  | single link => exact link.rank_lt
  | tail _ link ih => exact Nat.lt_trans link.rank_lt ih

theorem acyclic (s : Store) : s.Acyclic :=
  fun _ way => Nat.lt_irrefl _ (rank_lt_of_transGen way)

end Store
namespace Rewriting

/-! ### Calls that nest too deep -/

/-- Rewriting a session in calls, of which only so many may be nested in each other. -/
def nested (e : Environment) : Nat → Calls Session :=
  Registry.nested fun name => storing (e.ask name)

variable {e : Environment} {s : Store} {c : Calls Session} {depth : Nat}

theorem unlimited_bind {α β : Type} (act : Rewriting α) (next : α → Rewriting β) :
    unlimited (act >>= next) = unlimited act >>= fun a => unlimited (next a) := rfl

theorem bind_of_eq_some {σ α β : Type} {act : Limited σ α} {next : α → Limited σ β} {a : α}
    {x y : σ} (h : act x = some (a, y)) : (act >>= next) x = next a y := by
  simp only [bind, StateT.bind, h, Option.bind]

theorem mapM_unlimited {α β : Type} {limited : α → Limited Session β} {act : α → Rewriting β}
    {l : List α} (agree : ∀ a ∈ l, limited a = unlimited (act a)) :
    l.mapM limited = unlimited (l.mapM act) := by
  induction l with
  | nil => rfl
  | cons a rest ih =>
    have others := ih fun b hb => agree b (List.mem_cons_of_mem _ hb)
    rw [List.mapM_cons, List.mapM_cons, agree a List.mem_cons_self, others]
    rfl

/-- The calls do what the rewriting functions do, on handles of lower rank. -/
structure Agree (c : Calls Session) (e : Environment) (rank : Nat) : Prop where
  ask : ∀ name, c.ask name = storing (e.ask name)
  qual : ∀ t : QualType, t.rank < rank → c.qual t = unlimited (rewriteQual e t)
  name : ∀ n : NameId, n.slot.rank < rank → c.name n = unlimited (rewriteName e n)

namespace Agree

variable {rank : Nat}

theorem optionalName (agree : Agree c e rank) {n : Option NameId} (lower : optionalRank n < rank) :
    c.optionalName n = unlimited (rewriteOptionalName e n) := by
  cases n with
  | none =>
    rw [rewriteOptionalName]
    rfl
  | some n =>
    rw [Calls.optionalName, agree.name n lower, rewriteOptionalName]
    rfl

theorem argument (agree : Agree c e rank) {a : Argument} (lower : a.rank < rank) :
    c.argument a = unlimited (rewriteArgument e a) := by
  have name := agree.optionalName (Nat.lt_of_le_of_lt (Nat.le_max_left ..) lower)
  have type := agree.qual a.type (Nat.lt_of_le_of_lt (Nat.le_max_right ..) lower)
  rw [Calls.argument, name, type, rewriteArgument]
  rfl

theorem typeNode (agree : Agree c e rank) {slot : Slot} {n : TypeNode} (t : TypeId)
    (node : s.typeNode? slot = some n) (within : slot.rank ≤ rank) :
    c.typeNode s.toInterner t n = unlimited (rewriteNode e s t n) := by
  have lower {r : Nat} (part : r ∈ (Node.type n).ranks) : r < rank :=
    Nat.lt_of_lt_of_le (Store.rank_lt_of_typeNode? node r part) within
  cases n with
  | integer | float | declared => rfl
  | pointer element | reference element | array element =>
    have inner := agree.qual element (lower (by simp [Node.ranks]))
    rw [Calls.typeNode, inner, rewriteNode]
    rfl
  | memberPointer owner element =>
    have outer := agree.name owner (lower (by simp [Node.ranks]))
    have inner := agree.qual element (lower (by simp [Node.ranks]))
    rw [Calls.typeNode, outer, inner, rewriteNode]
    rfl
  | named name =>
    have inner := agree.name name (lower (by simp [Node.ranks]))
    rw [Calls.typeNode, inner, agree.ask, rewriteNode, unlimited_bind]
    refine bind_congr fun reply => ?_
    rw [unlimited_bind]
    refine bind_congr fun _ => ?_
    split <;> rfl
  | function signature =>
    rw [Calls.typeNode, rewriteNode]
    cases shape : s.signature? signature with
    | none => rfl
    | some f =>
      obtain ⟨outer, result, arguments⟩ := Store.rank_lt_of_function node shape
      have name := agree.optionalName (Nat.lt_of_lt_of_le outer within)
      have result := agree.qual f.result (Nat.lt_of_lt_of_le result within)
      have arguments := mapM_unlimited fun a ha =>
        agree.argument (Nat.lt_of_lt_of_le (arguments a ha) within)
      simp only [name, result, arguments]
      rfl

theorem nameNode (agree : Agree c e rank) {name : NameId} {n : NameNode}
    (node : s.nameNode? name = some n) (within : name.slot.rank ≤ rank) :
    c.nameNode s.toInterner n = unlimited (rewriteNameNode e s n) := by
  have lower {r : Nat} (part : r ∈ (Node.name n).ranks) : r < rank :=
    Nat.lt_of_lt_of_le (Store.rank_lt_of_nameNode? node r part) within
  cases n with
  | identifier | destructor | operator => rfl
  | qualified base member =>
    have outer := agree.name base (lower (by simp [Node.ranks]))
    have inner := agree.name member (lower (by simp [Node.ranks]))
    rw [Calls.nameNode, outer, inner, rewriteNameNode]
    rfl
  | template identifier args =>
    have inner := mapM_unlimited fun t ht =>
      agree.qual t (Nat.lt_of_lt_of_le (Store.rank_lt_of_template node ht) within)
    rw [Calls.nameNode, inner, rewriteNameNode]
    rfl
  | conversion target =>
    have inner := agree.qual target (lower (by simp [Node.ranks]))
    rw [Calls.nameNode, inner, rewriteNameNode]
    rfl
  | selector parts hasArguments =>
    have inner := mapM_unlimited fun n hn =>
      agree.name n (Nat.lt_of_lt_of_le (Store.rank_lt_of_selector node hn) within)
    rw [Calls.nameNode, inner, rewriteNameNode]
    rfl

theorem enterType (agree : Agree c e rank) {t : TypeId} {x : Session}
    (within : ∀ slot n, t = .stored slot → x.store.typeNode? slot = some n → slot.rank ≤ rank) :
    c.enterType t x = some (rewriteType e t x) := by
  cases t with
  | undefined | void | reserved =>
    rw [rewriteType]
    rfl
  | stored slot =>
    cases node : x.store.typeNode? slot with
    | none =>
      rw [c.enterType_of_typeNode?_eq_none node, rewriteType_of_typeNode?_eq_none node]
    | some n =>
      rw [c.enterType_of_typeNode? node, rewriteType_of_typeNode? node]
      exact congrFun (agree.typeNode _ node (within slot n rfl node)) x

theorem enterQual (agree : Agree c e rank) {t : QualType} {x : Session}
    (within : ∀ slot n, t.type = .stored slot → x.store.typeNode? slot = some n →
      slot.rank ≤ rank) :
    c.enterQual t x = some (rewriteQual e t x) := by
  have inner : rewriteType e t.type x = ((rewriteType e t.type x).1, (rewriteType e t.type x).2) :=
    rfl
  rw [Calls.enterQual, bind_of_eq_some (agree.enterType within), rewriteQual, Store.bind_eq inner]
  split <;> rfl

theorem enterName (agree : Agree c e rank) {n : NameId} {x : Session}
    (within : ∀ node, x.store.nameNode? n = some node → n.slot.rank ≤ rank) :
    c.enterName n x = some (rewriteName e n x) := by
  cases node : x.store.nameNode? n with
  | none => rw [c.enterName_of_nameNode?_eq_none node, rewriteName_of_nameNode?_eq_none node]
  | some m =>
    rw [c.enterName_of_nameNode? node, rewriteName_of_nameNode? node]
    exact congrFun (agree.nameNode node (within m node)) x

end Agree

/-- Calls that may nest so deep do what the rewriting functions do, on handles of lower rank. -/
theorem agree_nested (e : Environment) (depth : Nat) : Agree (nested e depth) e depth := by
  induction depth with
  | zero => exact ⟨fun _ => rfl, fun _ lower => absurd lower (Nat.not_lt_zero _),
      fun _ lower => absurd lower (Nat.not_lt_zero _)⟩
  | succ depth ih =>
    refine ⟨fun _ => rfl, ?_, ?_⟩
    · intro t lower
      funext x
      refine ih.enterQual fun slot n stored _ => ?_
      rw [QualType.rank, stored] at lower
      exact Nat.le_of_lt_succ lower
    · intro n lower
      funext x
      exact ih.enterName fun _ _ => Nat.le_of_lt_succ lower

/-- No call is nested deeper than there are entries in the store when the rewrite begins, whatever
the providers answer and however much is interned on the way. -/
theorem nested_eq (e : Environment) {x : Session} (deep : x.store.nodes.size < depth) :
    (∀ t, (nested e depth).qual t x = some (rewriteQual e t x)) ∧
      ∀ n, (nested e depth).name n x = some (rewriteName e n x) := by
  obtain ⟨depth, rfl⟩ : ∃ d, depth = d + 1 := Nat.exists_eq_succ_of_ne_zero (by omega)
  have agree := agree_nested e depth
  have within {slot : Slot} {n : Node} (node : x.store.node? slot = some n) : slot.rank ≤ depth :=
    Nat.le_trans (Store.covers_of_node? node) (Nat.le_of_lt_succ deep)
  constructor
  · intro t
    exact agree.enterQual fun slot n _ node => within (Store.node?_of_typeNode? node)
  · intro n
    exact agree.enterName fun _ node => within (Store.node?_of_nameNode? node)

end Rewriting
end Respell

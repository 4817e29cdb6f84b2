import Mathlib.Data.Finset.Card
import Mathlib.Logic.Relation
import Respell.Proofs.Unfolding
import Respell.Resolver

/-! When the spelling of full names ends. A declared type is printed as the full name of its
declaration, that name is printed in its turn, and the declared types in it ask for further full
names. Nothing bounds this but the names themselves. Main statements: printing depends on the full
names it asks for and on no others (`Tree.print_congr`); the spelling of a full name ends exactly
when no declaration on the way leads round to itself (`LookupContext.spells_iff`), which a bounded
search decides (`LookupContext.ends_iff`); and with it ends the formatting of types and names, in
the text that the formatting functions give (`LookupContext.formats_iff`, `formatsName_iff`). -/
namespace Respell

theorem isEmpty_append (a b : String) : (a ++ b).isEmpty = (a.isEmpty && b.isEmpty) := by
  rw [Bool.eq_iff_iff, Bool.and_eq_true, String.isEmpty_iff, String.isEmpty_iff, String.isEmpty_iff,
    String.append_eq_empty_iff]

theorem isEmpty_join (texts : List String) :
    (String.join texts).isEmpty = texts.all String.isEmpty := by
  induction texts with
  | nil => rfl
  | cons first rest ih => rw [String.join_cons, isEmpty_append, ih, List.all_cons]

theorem isEmpty_pointerDeclarator {mark : String} (marked : mark.isEmpty = false) (q : Qualifiers)
    (inner : String) : (pointerDeclarator mark q inner).isEmpty = false := by
  simp only [pointerDeclarator]
  split
  · simp [isEmpty_append, marked]
  · split <;> simp [isEmpty_append, marked]

theorem isEmpty_functionDeclarator (name : String) (arguments : List String)
    (attributes : FunctionAttributes) (inner : String) :
    (functionDeclarator name arguments attributes inner).isEmpty = false := by
  have paren : "(".isEmpty = false := rfl
  simp [functionDeclarator, isEmpty_append, paren]

namespace Tree

theorem isEmpty_parenthesize {declarator : String} (element : Tree .qualified)
    (some_ : declarator.isEmpty = false) : (element.parenthesize declarator).isEmpty = false := by
  rw [parenthesize]
  split
  · simp [isEmpty_append, some_]
  · exact some_

variable {spell spell' : SymbolId → Option String} {p : Part}

/-! ### What printing depends on -/

/-- The texts of two printings of a name are both empty or both not, one by one in a list. -/
def SameBlanks : (p : Part) → Printed p → Printed p → Prop
  | .name, a, b | .optionalName, a, b => String.isEmpty a = String.isEmpty b
  | .names, as, bs => List.map String.isEmpty as = List.map String.isEmpty bs
  | _, _, _ => True

theorem isEmpty_selector (texts : List String) (hasArguments : Bool) :
    (String.join (texts.map fun part => if hasArguments then part ++ ":" else part)).isEmpty =
      (texts.map String.isEmpty).all fun blank => !hasArguments && blank := by
  have colon : ":".isEmpty = false := rfl
  rw [isEmpty_join, List.all_map, List.all_map]
  congr 1
  funext part
  cases hasArguments <;> simp [isEmpty_append, colon]

/-- Whether a name is printed as an empty text does not depend on full names. -/
theorem sameBlanks_print (spell spell' : SymbolId → Option String) (t : Tree p) :
    SameBlanks p (t.print spell) (t.print spell') := by
  induction t with
  | undefined | void | integer | float | pointer | reference | array | memberPointer => trivial
  | named | function | shapeless | declared | unknown | qual => trivial
  | noTypes | consType | noArguments | consArgument => trivial
  | identifier | destructor | operator | unknownName | noName | noNames => rfl
  | justName _ ih => exact ih
  | qualified base member =>
    have colons : "::".isEmpty = false := rfl
    simp [SameBlanks, print, isEmpty_append, colons]
  | template text args =>
    have angle : "<".isEmpty = false := rfl
    simp [SameBlanks, print, isEmpty_append, angle]
  | conversion target =>
    have word : "operator ".isEmpty = false := rfl
    simp [SameBlanks, print, isEmpty_append, word]
  | consName first rest ihFirst ihRest =>
    have one : (first.print spell).isEmpty = (first.print spell').isEmpty := ihFirst
    have others : (rest.print spell).map String.isEmpty = (rest.print spell').map String.isEmpty :=
      ihRest
    simp only [SameBlanks, print, List.map_cons, one, others]
  | selector parts hasArguments ih =>
    have blanks :
        (parts.print spell).map String.isEmpty = (parts.print spell').map String.isEmpty := ih
    simp only [SameBlanks, print, isEmpty_selector, blanks]

/-- Two printings are the same; those of a type, around every inner text that is empty or not as
`alone` says. -/
def SamePrint (alone : Bool) : (p : Part) → Printed p → Printed p → Prop
  | .type, f, g =>
    ∀ (q : Qualifiers) (inner : String), inner.isEmpty = alone → f q inner = g q inner
  | .qualified, f, g => ∀ inner : String, inner.isEmpty = alone → f inner = g inner
  | .name, a, b | .optionalName, a, b | .types, a, b | .names, a, b | .arguments, a, b => a = b

/-- Printing depends on the full names that it asks for, and on no others. -/
theorem print_congr (alone : Bool) (t : Tree p) (same : ∀ a ∈ t.asked alone, spell a = spell' a) :
    SamePrint alone p (t.print spell) (t.print spell') := by
  induction t generalizing alone with
  | undefined | void | integer | float | shapeless | unknown => exact fun _ _ _ => rfl
  | identifier | destructor | operator | unknownName | noName => rfl
  | noTypes | noNames | noArguments => rfl
  | pointer element ih =>
    intro q inner _
    have mark : "*".isEmpty = false := rfl
    exact ih _ same _ (isEmpty_parenthesize _ (isEmpty_pointerDeclarator mark q inner))
  | reference element ih =>
    intro q inner _
    have mark : "&".isEmpty = false := rfl
    exact ih _ same _ (isEmpty_parenthesize _ (by simp [isEmpty_append, mark]))
  | array element size ih =>
    intro q inner _
    have bracket : "[".isEmpty = false := rfl
    exact ih _ same _ (by simp [isEmpty_append, bracket])
  | memberPointer owner element ihOwner ihElement =>
    intro q inner _
    simp only [asked, List.forall_mem_append] at same
    have name : owner.print spell = owner.print spell' := ihOwner _ same.1
    have colons : "::*".isEmpty = false := rfl
    have mark : (owner.print spell' ++ "::*").isEmpty = false := by simp [isEmpty_append, colons]
    simp only [print, name]
    exact ihElement _ same.2 _ (isEmpty_parenthesize _ (isEmpty_pointerDeclarator mark q inner))
  | named name ih =>
    intro q inner _
    have name : name.print spell = name.print spell' := ih true same
    simp only [print, name]
  | function name result arguments attributes ihName ihResult ihArguments =>
    intro q inner bare
    simp only [asked, List.forall_mem_append] at same
    have listed : arguments.print spell = arguments.print spell' := ihArguments _ same.1.2
    have declarator :
        functionDeclarator (name.print spell) (arguments.print spell) attributes inner =
          functionDeclarator (name.print spell') (arguments.print spell') attributes inner := by
      cases alone with
      | false => simp only [functionDeclarator, bare, listed, Bool.false_eq_true, if_false]
      | true =>
        have called : name.print spell = name.print spell' := ihName _ same.1.1
        rw [called, listed]
    simp only [print, declarator]
    exact ihResult _ same.2 _ (isEmpty_functionDeclarator ..)
  | declared shape symbol =>
    intro q inner _
    simp only [print, same symbol (List.mem_singleton_self symbol)]
  | qual type q ih => exact ih _ same q
  | qualified base member ihFirst ihRest =>
    simp only [asked, List.forall_mem_append] at same
    have one : base.print spell = base.print spell' := ihFirst _ same.1
    have other : member.print spell = member.print spell' := ihRest _ same.2
    simp only [SamePrint, print, one, other]
  | template text args ih =>
    have args : args.print spell = args.print spell' := ih true same
    simp only [SamePrint, print, args]
  | conversion target ih =>
    have target : target.print spell "" = target.print spell' "" := ih true same "" rfl
    simp only [SamePrint, print, target]
  | selector parts hasArguments ih =>
    have parts : parts.print spell = parts.print spell' := ih true same
    simp only [SamePrint, print, parts]
  | justName name ih => exact ih true same
  | consType first rest ihFirst ihRest =>
    simp only [asked, List.forall_mem_append] at same
    have one : first.print spell "" = first.print spell' "" := ihFirst _ same.1 "" rfl
    have others : rest.print spell = rest.print spell' := ihRest _ same.2
    simp only [SamePrint, print, one, others]
  | consName first rest ihFirst ihRest =>
    simp only [asked, List.forall_mem_append] at same
    have one : first.print spell = first.print spell' := ihFirst _ same.1
    have others : rest.print spell = rest.print spell' := ihRest _ same.2
    simp only [SamePrint, print, one, others]
  | consArgument name type defaultValue storage rest ihName ihType ihRest =>
    simp only [asked, List.forall_mem_append] at same
    have called : name.print spell = name.print spell' := ihName _ same.1.1
    have blank : (name.print spell').isEmpty = (name.print fun _ => none).isEmpty :=
      sameBlanks_print spell' (fun _ => none) name
    have declarator :
        type.print spell (name.print spell') = type.print spell' (name.print spell') :=
      ihType _ same.1.2 _ blank
    have others : rest.print spell = rest.print spell' := ihRest _ same.2
    simp only [SamePrint, print, called, declarator, others]

end Tree

def Node.declared? : Node → Option SymbolId
  | .type (.declared _ symbol) => some symbol
  | _ => none

namespace Store

variable {s : Store}

theorem nameText_congr {spell spell' : SymbolId → Option String} {n : NameId}
    (same : ∀ a ∈ (s.nameTree n).asked true, spell a = spell' a) :
    s.nameText spell n = s.nameText spell' n :=
  (s.nameTree n).print_congr true same

theorem declarationText_congr {spell spell' : SymbolId → Option String} {t : QualType}
    {inner : String} (same : ∀ a ∈ (s.qualTree t).asked inner.isEmpty, spell a = spell' a) :
    s.declarationText spell t inner = s.declarationText spell' t inner :=
  (s.qualTree t).print_congr _ same inner rfl

/-- The declarations that the types of the store name. -/
def declarations (s : Store) : Finset SymbolId := (s.nodes.toList.filterMap Node.declared?).toFinset

theorem card_declarations_le (s : Store) : s.declarations.card ≤ s.typeCount := by
  have few := List.toFinset_card_le (s.nodes.toList.filterMap Node.declared?)
  rw [List.length_filterMap_eq_countP] at few
  have named : s.nodes.toList.countP (fun n => n.declared?.isSome) ≤
      s.nodes.toList.countP Node.isType := by
    apply List.countP_mono_left
    intro n _ some_
    cases n with
    | type => rfl
    | _ => cases some_
  have few := few.trans named
  rw [Array.countP_toList] at few
  exact few.trans (Nat.le_add_left ..)

theorem mem_declarations {slot : Slot} {shape : OpaqueShape} {symbol : SymbolId}
    (node : s.typeNode? slot = some (.declared shape symbol)) : symbol ∈ s.declarations := by
  have there := node?_of_typeNode? node
  cases slot with
  | foreign => cases there
  | entry i =>
    have inside : Node.type (.declared shape symbol) ∈ s.nodes := Array.mem_of_getElem? there
    exact List.mem_toFinset.mpr (List.mem_filterMap.mpr ⟨_, inside.val, rfl⟩)

/-- Only declarations that the store names are asked for. -/
theorem asked_subset (p : Part) (h : p.Handle) (alone : Bool) :
    ∀ a ∈ (s.unfold p h).tree.asked alone, a ∈ s.declarations := by
  induction p, h using s.part_induction generalizing alone with
  | undefined | void | reserved | noName | noTypes | noNames | noArguments =>
    simp [Unfolding.tree, Tree.asked]
  | unknown slot node =>
    simp [unfold_of_typeNode?_eq_none node, Unfolding.tree, Tree.asked]
  | unknownName n node =>
    simp [unfold_of_nameNode?_eq_none node, Unfolding.tree, Tree.asked]
  | integer slot kind node | float slot kind node =>
    simp [unfold_of_typeNode? node, unfoldNode, Unfolding.tree, Tree.asked]
  | shapeless slot signature node shape =>
    simp [unfold_of_typeNode? node, unfoldNode, shape, Unfolding.tree, Tree.asked]
  | identifier atom n node | destructor atom n node | operator kind n node =>
    simp [unfold_of_nameNode? node, unfoldName, Unfolding.tree, Tree.asked]
  | declared slot shape symbol node =>
    simpa [unfold_of_typeNode? node, unfoldNode, Unfolding.tree, Tree.asked] using
      mem_declarations node
  | pointer slot element node ih | reference slot element node ih
  | array slot element size node ih =>
    rw [unfold_of_typeNode? node]
    exact ih false
  | named slot name node ih =>
    rw [unfold_of_typeNode? node]
    exact ih true
  | memberPointer slot owner element node ihOwner ihElement =>
    rw [unfold_of_typeNode? node]
    exact List.forall_mem_append.mpr ⟨ihOwner true, ihElement false⟩
  | function slot signature node f shape ihName ihResult ihArguments =>
    simp only [unfold_of_typeNode? node, unfoldNode, shape, Unfolding.tree, Tree.asked,
      List.forall_mem_append]
    refine ⟨⟨?_, ihArguments true⟩, ihResult false⟩
    cases alone with
    | false => simp
    | true => exact ihName true
  | qual t ih =>
    rw [unfold_qual]
    exact ih alone
  | qualified base member n node ihBase ihMember =>
    rw [unfold_of_nameNode? node]
    exact List.forall_mem_append.mpr ⟨ihBase true, ihMember true⟩
  | template atom args n node ih | conversion target n node ih
  | selector parts hasArguments n node ih =>
    rw [unfold_of_nameNode? node]
    exact ih true
  | justName n ih =>
    rw [unfold_justName]
    exact ih true
  | consType first rest ihFirst ihRest =>
    rw [unfold_consType]
    exact List.forall_mem_append.mpr ⟨ihFirst true, ihRest true⟩
  | consName first rest ihFirst ihRest =>
    rw [unfold_consName]
    exact List.forall_mem_append.mpr ⟨ihFirst true, ihRest true⟩
  | consArgument a rest ihName ihType ihRest =>
    rw [unfold_consArgument]
    simp only [Unfolding.tree, Tree.asked, List.forall_mem_append]
    exact ⟨⟨ihName true, ihType _⟩, ihRest true⟩

theorem mem_declarations_of_asked {n : NameId} {a : SymbolId}
    (asked : a ∈ (s.nameTree n).asked true) : a ∈ s.declarations := by
  have same : s.nameTree n = (s.unfold .name n).tree := (s.tree_unfold .name n).symm
  rw [same] at asked
  exact asked_subset .name n true a asked

end Store

namespace LookupContext

open Relation

variable {c : LookupContext} {s : Store} {a b : SymbolId}

/-! ### Full names that end -/

/-- To spell the full name of the one declaration is to ask for that of the other. -/
def Mentions (c : LookupContext) (s : Store) (a b : SymbolId) : Prop :=
  ∃ n ∈ c.qualifiedName a, b ∈ (s.nameTree n).asked true

/-- The spelling of a full name ends, and comes to this: it ends when the spelling of every full
name that it asks for does. -/
inductive Spells (c : LookupContext) (s : Store) : SymbolId → Option String → Prop
  | unnamed {a : SymbolId} (nothing : c.qualifiedName a = []) : Spells c s a none
  | named {a : SymbolId} (spell : SymbolId → Option String) (known : c.qualifiedName a ≠ [])
      (inside : ∀ b, c.Mentions s a b → Spells c s b (spell b)) :
      Spells c s a (some (Text.joinPath ((c.qualifiedName a).map (s.nameText spell))))

/-- From the declaration on, full names come to one that asks for itself again. -/
def LeadsRound (c : LookupContext) (s : Store) (a : SymbolId) : Prop :=
  ∃ b, ReflTransGen (c.Mentions s) a b ∧ TransGen (c.Mentions s) b b

theorem LeadsRound.head (round : c.LeadsRound s b) (link : c.Mentions s a b) :
    c.LeadsRound s a := by
  obtain ⟨b', path, back⟩ := round
  exact ⟨b', .head link path, back⟩

theorem LeadsRound.next (round : c.LeadsRound s a) : ∃ b, c.Mentions s a b ∧ c.LeadsRound s b := by
  obtain ⟨b', path, back⟩ := round
  rcases path.cases_head with rfl | ⟨b, link, onward⟩
  · obtain ⟨b, link, onward⟩ := TransGen.head'_iff.mp back
    exact ⟨b, link, a, onward, back⟩
  · exact ⟨b, link, b', onward, back⟩

theorem not_mentions_of_qualifiedName_eq_nil (nothing : c.qualifiedName a = []) :
    ¬ c.Mentions s a b := by
  rintro ⟨n, hn, -⟩
  rw [nothing] at hn
  cases hn

theorem Spells.not_leadsRound {text : Option String} (spells : c.Spells s a text) :
    ¬ c.LeadsRound s a := by
  induction spells with
  | unnamed nothing =>
    intro round
    obtain ⟨b, link, -⟩ := round.next
    exact not_mentions_of_qualifiedName_eq_nil nothing link
  | named _ _ _ ih =>
    intro round
    obtain ⟨b, link, onward⟩ := round.next
    exact ih b link onward

theorem Spells.unique {text text' : Option String} (spells : c.Spells s a text)
    (spells' : c.Spells s a text') : text = text' := by
  induction spells generalizing text' with
  | unnamed nothing =>
    cases spells' with
    | unnamed => rfl
    | named _ known => exact absurd nothing known
  | @named a spell known inside ih =>
    cases spells' with
    | unnamed nothing => exact absurd nothing known
    | named spell' _ inside' =>
      have same : ∀ n ∈ c.qualifiedName a, s.nameText spell n = s.nameText spell' n := fun n hn =>
        Store.nameText_congr fun b hb => ih b ⟨n, hn, hb⟩ (inside' b ⟨n, hn, hb⟩)
      rw [List.map_congr_left same]

/-! ### The bounded search -/

theorem spells_spellTo {r : Resolver} {depth : Nat} (ends : r.endsWithin s depth a = true) :
    (LookupContext.mk (some r)).Spells s a (r.spellTo s depth a) := by
  induction depth generalizing a with
  | zero => cases ends
  | succ depth ih =>
    simp only [Resolver.endsWithin, List.all_eq_true] at ends
    rw [Resolver.spellTo]
    split
    · rename_i nothing
      exact .unnamed nothing
    · rename_i unknown
      refine .named _ unknown ?_
      rintro b ⟨n, hn, hb⟩
      exact ih (ends n hn b hb)

open Classical in
/-- The declarations that the full name of a declaration leads to. -/
noncomputable def reach (c : LookupContext) (s : Store) (a : SymbolId) : Finset SymbolId :=
  s.declarations.filter (TransGen (c.Mentions s) a)

open Classical in
theorem mem_reach : b ∈ c.reach s a ↔ b ∈ s.declarations ∧ TransGen (c.Mentions s) a b :=
  Finset.mem_filter

open Classical in
theorem card_reach_le (c : LookupContext) (s : Store) (a : SymbolId) :
    (c.reach s a).card ≤ s.typeCount :=
  (Finset.card_filter_le _ _).trans s.card_declarations_le

/-- Each full name on the way leads to fewer declarations, unless there is a way back to it. -/
theorem card_reach_lt (link : c.Mentions s a b) (straight : ¬ c.LeadsRound s b) :
    (c.reach s b).card < (c.reach s a).card := by
  obtain ⟨n, hn, hb⟩ := link
  have link : c.Mentions s a b := ⟨n, hn, hb⟩
  have named := Store.mem_declarations_of_asked hb
  apply Finset.card_lt_card
  rw [Finset.ssubset_iff_of_subset]
  · refine ⟨b, mem_reach.mpr ⟨named, .single link⟩, ?_⟩
    intro back
    exact straight ⟨b, .refl, (mem_reach.mp back).2⟩
  · intro b' hb'
    obtain ⟨named', onward⟩ := mem_reach.mp hb'
    exact mem_reach.mpr ⟨named', .head link onward⟩

theorem endsWithin_of_not_leadsRound {r : Resolver} {depth : Nat}
    (straight : ¬ (LookupContext.mk (some r)).LeadsRound s a)
    (few : ((LookupContext.mk (some r)).reach s a).card < depth) :
    r.endsWithin s depth a = true := by
  induction depth generalizing a with
  | zero => omega
  | succ depth ih =>
    simp only [Resolver.endsWithin, List.all_eq_true]
    intro n hn b hb
    have link : (LookupContext.mk (some r)).Mentions s a b := ⟨n, hn, hb⟩
    have straight' : ¬ (LookupContext.mk (some r)).LeadsRound s b := fun round =>
      straight (round.head link)
    have fewer := card_reach_lt link straight'
    exact ih straight' (by omega)

theorem spells_of_ends (ends : c.ends s a = true) : c.Spells s a (c.spell s a) := by
  obtain ⟨_ | r⟩ := c
  · exact .unnamed rfl
  · exact spells_spellTo ends

/-- Whether the spelling of a full name ends is decided by a search that is no deeper than there are
types. -/
theorem ends_iff : c.ends s a = true ↔ ¬ c.LeadsRound s a := by
  constructor
  · intro ends
    exact (spells_of_ends ends).not_leadsRound
  · intro straight
    obtain ⟨_ | r⟩ := c
    · rfl
    · exact endsWithin_of_not_leadsRound straight (Nat.lt_succ_of_le (card_reach_le ..))

/-- The spelling of a full name ends exactly when no full name on the way asks for itself again, and
`spell` has what it comes to. -/
theorem spells_iff {text : Option String} :
    c.Spells s a text ↔ ¬ c.LeadsRound s a ∧ text = c.spell s a := by
  constructor
  · intro spells
    have straight := spells.not_leadsRound
    exact ⟨straight, spells.unique (spells_of_ends (ends_iff.mpr straight))⟩
  · rintro ⟨straight, rfl⟩
    exact spells_of_ends (ends_iff.mpr straight)

/-! ### Formatting that ends -/

/-- The formatting of a type, as that of the thing called `inner`, ends with this text: it ends when
the spelling of every full name that it asks for does. -/
def Formats (c : LookupContext) (s : Store) (t : QualType) (inner text : String) : Prop :=
  ∃ spell, (∀ a ∈ (s.qualTree t).asked inner.isEmpty, c.Spells s a (spell a)) ∧
    text = s.declarationText spell t inner

def FormatsName (c : LookupContext) (s : Store) (n : NameId) (text : String) : Prop :=
  ∃ spell, (∀ a ∈ (s.nameTree n).asked true, c.Spells s a (spell a)) ∧ text = s.nameText spell n

theorem formats_iff {t : QualType} {inner text : String} :
    c.Formats s t inner text ↔ (∀ a ∈ (s.qualTree t).asked inner.isEmpty, ¬ c.LeadsRound s a) ∧
      text = s.declarationText (c.spell s) t inner := by
  constructor
  · rintro ⟨spell, spells, rfl⟩
    have both := fun a ha => spells_iff.mp (spells a ha)
    exact ⟨fun a ha => (both a ha).1, Store.declarationText_congr fun a ha => (both a ha).2⟩
  · rintro ⟨straight, rfl⟩
    exact ⟨c.spell s, fun a ha => spells_iff.mpr ⟨straight a ha, rfl⟩, rfl⟩

theorem formatsName_iff {n : NameId} {text : String} :
    c.FormatsName s n text ↔ (∀ a ∈ (s.nameTree n).asked true, ¬ c.LeadsRound s a) ∧
      text = s.nameText (c.spell s) n := by
  constructor
  · rintro ⟨spell, spells, rfl⟩
    have both := fun a ha => spells_iff.mp (spells a ha)
    exact ⟨fun a ha => (both a ha).1, Store.nameText_congr fun a ha => (both a ha).2⟩
  · rintro ⟨straight, rfl⟩
    exact ⟨c.spell s, fun a ha => spells_iff.mpr ⟨straight a ha, rfl⟩, rfl⟩

theorem not_leadsRound_empty : ¬ empty.LeadsRound s a := ends_iff.mp rfl

end LookupContext
end Respell

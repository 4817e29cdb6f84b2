import Mathlib.Data.List.Find
import Mathlib.Logic.Function.Basic
import Respell.Proofs.BindingStacks
import Respell.Proofs.Commuting
import Respell.Proofs.Output
import Respell.Proofs.PassedShapes

/-! Renamed identifiers. No identifier is special: a rewrite takes a text for no more than what
tells it from other texts, whether the store has had it from the start or not, and whether it is
empty. Main statement: when a part and all that is bound are renamed one to one, in whichever
stores, a rewrite comes to the renamed result and reports the same shapes (`rewrite_renamed`). -/
namespace Respell

open Store

namespace Tree

/-- The tree with the identifiers of all its names renamed. A default value is no identifier. -/
def rename (r : String → String) : {p : Part} → Tree p → Tree p
  | _, undefined => undefined
  | _, void => void
  | _, integer kind => integer kind
  | _, float kind => float kind
  | _, pointer element => pointer (element.rename r)
  | _, reference element => reference (element.rename r)
  | _, array element size => array (element.rename r) size
  | _, memberPointer owner element => memberPointer (owner.rename r) (element.rename r)
  | _, named name => named (name.rename r)
  | _, function name result arguments attributes =>
    function (name.rename r) (result.rename r) (arguments.rename r) attributes
  | _, shapeless signature => shapeless signature
  | _, declared shape symbol => declared shape symbol
  | _, unknown type => unknown type
  | _, qual type qualifiers => qual (type.rename r) qualifiers
  | _, identifier text => identifier (r text)
  | _, qualified base member => qualified (base.rename r) (member.rename r)
  | _, template text args => template (r text) (args.rename r)
  | _, destructor text => destructor (r text)
  | _, operator kind => operator kind
  | _, conversion target => conversion (target.rename r)
  | _, selector parts hasArguments => selector (parts.rename r) hasArguments
  | _, unknownName name => unknownName name
  | _, noName => noName
  | _, justName name => justName (name.rename r)
  | _, noTypes => noTypes
  | _, consType first rest => consType (first.rename r) (rest.rename r)
  | _, noNames => noNames
  | _, consName first rest => consName (first.rename r) (rest.rename r)
  | _, noArguments => noArguments
  | _, consArgument name type defaultValue storage rest =>
    consArgument (name.rename r) (type.rename r) defaultValue storage (rest.rename r)

variable {r : String → String} {p : Part}

theorem rename_of_leftInverse {back : String → String} (undoes : Function.LeftInverse back r)
    (t : Tree p) : (t.rename r).rename back = t := by
  induction t <;> simp_all [rename, undoes _]

theorem rename_injective (injective : Function.Injective r) :
    Function.Injective (rename r : Tree p → Tree p) := by
  obtain ⟨back, undoes⟩ := injective.hasLeftInverse
  exact Function.LeftInverse.injective (rename_of_leftInverse undoes)

theorem shapes_rename (t : Tree p) : (t.rename r).shapes = t.shapes := by
  induction t <;> simp_all [rename, shapes]

theorem plain_rename {t : Tree p} (plain : t.Plain) : (t.rename r).Plain := by
  induction t <;> simp_all [rename, Plain]

theorem rename_qualify (t : Tree .qualified) (more : Qualifiers) :
    (t.qualify more).rename r = (t.rename r).qualify more := by
  cases t with
  | qual type own => cases type <;> rfl

theorem isUndefined_rename (t : Tree .qualified) : (t.rename r).isUndefined = t.isUndefined := by
  cases t with
  | qual type own => cases type <;> rfl

/-- Renaming and then substituting the renamed answers is substituting and then renaming. -/
theorem substitute_rename {answer answer' : Tree .name → Option (Tree .qualified)}
    (renamed : ∀ name, answer' (name.rename r) = (answer name).map (rename r)) (t : Tree p) :
    (t.rename r).substitute answer' = (t.substitute answer).rename r := by
  induction t with
  | named name ih =>
    rw [rename, substitute, substitute, renamed, ih]
    cases answer name <;> rfl
  | qual type own ih => rw [rename, substitute, substitute, ih, rename_qualify]
  | _ => simp_all [rename]

end Tree

/-! ### Bindings as trees -/

namespace BindingTree

def rename (r : String → String) (b : BindingTree) : BindingTree := ⟨b.name.rename r, b.type.rename r⟩

end BindingTree

theorem lastBinding_rename {r : String → String} (injective : Function.Injective r)
    (bindings : List BindingTree) (name : Tree .name) :
    lastBinding (bindings.map (.rename r)) (name.rename r) =
      (lastBinding bindings name).map (.rename r) := by
  have same (other : Tree .name) : other.rename r = name.rename r ↔ other = name :=
    (Tree.rename_injective injective).eq_iff
  rw [lastBinding, lastBinding, ← List.map_reverse, List.find?_map, Option.map_map, Option.map_map]
  simp only [Function.comp_def, BindingTree.rename, same]

/-- What a stack of maps answers, the one on top first: the first defined type that the name is
bound to in the end. -/
def stackAnswer (stack : List (List BindingTree)) (name : Tree .name) : Option (Tree .qualified) :=
  stack.findSome? fun bindings => (lastBinding bindings name).filter (!·.isUndefined)

theorem stackAnswer_rename {r : String → String} (injective : Function.Injective r)
    (stack : List (List BindingTree)) (name : Tree .name) :
    stackAnswer (stack.map (·.map (.rename r))) (name.rename r) =
      (stackAnswer stack name).map (.rename r) := by
  rw [stackAnswer, stackAnswer, List.findSome?_map, List.map_findSome?]
  congr 1
  funext bindings
  rw [Function.comp_apply, Function.comp_apply, lastBinding_rename injective]
  cases lastBinding bindings name with
  | none => rfl
  | some tree =>
    rw [Option.map_some, Option.filter_some, Option.filter_some, Tree.isUndefined_rename]
    split <;> rfl

namespace BindingMap

/-- The bindings of the map, as the store reads them. -/
def trees (m : BindingMap) (s : Store) : List BindingTree :=
  m.bindings.map fun b => ⟨s.nameTree b.1, s.qualTree b.2⟩

theorem get?_trees {m : BindingMap} {s : Store}
    (known : ∀ b ∈ m.bindings, (s.unfold .name b.1).Grounded s) {name : NameId}
    (grounded : (s.unfold .name name).Grounded s) :
    (m.get? name).map s.qualTree = lastBinding (m.trees s) (s.nameTree name) := by
  have same : ∀ b ∈ m.bindings.reverse, (b.1 == name) = decide (s.nameTree b.1 = s.nameTree name) := by
    intro b mem
    rw [Bool.eq_iff_iff, beq_iff_eq, decide_eq_true_iff]
    refine ⟨congrArg s.nameTree, fun alike => ?_⟩
    apply eq_of_tree_unfold (p := .name) (known b (List.mem_reverse.mp mem)) grounded
    rw [tree_unfold, tree_unfold]
    exact alike
  rw [get?, lastBinding, trees, ← List.map_reverse, List.find?_map, Option.map_map, Option.map_map,
    List.find?_congr same]
  rfl

end BindingMap

/-! ### Environments of maps -/

namespace Environment

theorem askInTurn_maps (q : Query) (s : Store) (ms : List BindingMap) :
    (askInTurn q (ms.map .ofBindings) s).2 = s ∧
      s.answerTree (askInTurn q (ms.map .ofBindings) s).1.type =
        ms.findSome? fun m => s.answerTree ((m.get? q.name).getD .undefined) := by
  induction ms with
  | nil => exact ⟨rfl, rfl⟩
  | cons m ms ih =>
    have answer : (Provider.ofBindings m).answer q s = ((m.get? q.name).getD .undefined, s) := rfl
    rw [List.map_cons, List.findSome?_cons]
    cases absent : ((m.get? q.name).getD .undefined).isUndefined with
    | false =>
      rw [askInTurn_cons_of_defined (by rw [answer, absent]), answer, Store.answerTree, absent]
      exact ⟨rfl, rfl⟩
    | true =>
      rw [askInTurn_cons_of_undefined (by rw [answer, absent]), answer]
      refine ⟨ih.1, ih.2.trans ?_⟩
      rw [Store.answerTree, absent]
      rfl

end Environment

/-- The store gave out what is bound, and every atom and list in the names. -/
structure BindingMap.Handed (m : BindingMap) (s : Store) : Prop where
  names : ∀ b ∈ m.bindings, (s.unfold .name b.1).Grounded s
  types : ∀ b ∈ m.bindings, s.Gave .qualified b.2

/-- A stack of binding maps, the one that is asked first in front. -/
def stacked (stack : List BindingMap) : Environment := { providers := stack.map .ofBindings }

section

variable {s : Store} {stack : List BindingMap}

theorem answerTree_stacked (handed : ∀ m ∈ stack, m.Handed s) {name : NameId}
    (grounded : (s.unfold .name name).Grounded s) :
    (stacked stack).answerTree s name = stackAnswer (stack.map (·.trees s)) (s.nameTree name) := by
  have single : ∀ m ∈ stack, s.answerTree ((m.get? name).getD .undefined) =
      (lastBinding (m.trees s) (s.nameTree name)).filter (!·.isUndefined) := by
    intro m mem
    rw [← BindingMap.get?_trees (handed m mem).names grounded]
    cases m.get? name with
    | none => rfl
    | some type =>
      have same : (s.qualTree type).isUndefined = type.isUndefined := isUndefined_partTree s type
      rw [Option.getD_some, Option.map_some, Option.filter_some, same, Store.answerTree]
      cases type.isUndefined <;> rfl
  obtain ⟨store, type⟩ := Environment.askInTurn_maps ((stacked stack).query name) s stack
  have asked : (stacked stack).answerTree s name =
      stack.findSome? fun m => s.answerTree ((m.get? name).getD .undefined) := by
    change (Environment.askInTurn _ (stack.map .ofBindings) s).2.answerTree _ = _
    rw [store]
    exact type
  rw [asked, stackAnswer, List.findSome?_map]
  clear asked store type handed
  induction stack with
  | nil => rfl
  | cons m stack ih =>
    obtain ⟨first, others⟩ := List.forall_mem_cons.mp single
    rw [List.findSome?_cons, List.findSome?_cons, first, ih others]
    rfl

/-- What comes of a rewrite: the tree of its result, and the shapes that it reports. -/
structure Comes (answer : Tree .name → Option (Tree .qualified)) {p : Part} (tree : Tree p)
    (x : Session) (run : p.rewritten.Handle × Session) : Prop where
  reads : run.2.store.partTree p.rewritten run.1 = tree.substitute answer
  diagnostics : ∃ more, run.2.diagnostics = x.diagnostics ++ more ∧
    more.map (·.shape) = (tree.substitute (voiding fun name => (answer name).isSome)).shapes

theorem comes_rewritePart {x : Session} (handed : ∀ m ∈ stack, m.Handed x.store) {p : Part}
    {h : p.Handle} (settled : x.store.Settled p h) (grounded : (x.store.unfold p h).Grounded x.store) :
    Comes (stackAnswer (stack.map (·.trees x.store))) (x.store.partTree p h) x
      (Rewriting.rewritePart (stacked stack) p h x) := by
  have given : (stacked stack).Given x.store := .of_bindings stack fun m hm => (handed m hm).types
  have rewritten := (Rewriting.yields_rewritePart given.answers p h settled (fun _ => grounded)
    x (.refl _)).2
  obtain ⟨more, reported, shapes⟩ := Rewriting.shapes_rewritePart
    (Environment.steady_of_standard given.standard) p h settled x (.refl _)
  have has : ∀ name : NameId, (x.store.unfold .name name).Grounded x.store →
      voiding ((stacked stack).has x.store) name =
        voiding (fun name => (stackAnswer (stack.map (·.trees x.store)) name).isSome)
          (x.store.nameTree name) := by
    intro name known
    rw [voiding, voiding, ← answerTree_stacked handed known, Environment.answerTree,
      Store.answerTree, Environment.has]
    cases ((stacked stack).ask name x.store).1.type.isUndefined <;> rfl
  refine ⟨?_, more, reported, ?_⟩
  · rw [rewritten.reads, substitute_tree (fun name known => answerTree_stacked handed known) p h grounded,
      tree_unfold]
  · rw [shapes, substitute_tree has p h grounded, tree_unfold]

theorem comes_rewriteQual {x : Session} (handed : ∀ m ∈ stack, m.Handed x.store) {type : QualType}
    (grounded : (x.store.unfold .qualified type).Grounded x.store) :
    Comes (stackAnswer (stack.map (·.trees x.store))) (x.store.partTree .qualified type) x
      (Rewriting.rewriteQual (stacked stack) type x) := by
  rcases Rewriting.settled_or_typeNode?_eq_none x.store type.type with settled | ⟨slot, stored, node⟩
  · exact comes_rewritePart (p := .qualified) handed settled grounded
  · obtain ⟨type, qualifiers⟩ := type
    subst stored
    rw [Rewriting.rewriteQual_of_typeNode?_eq_none node]
    have tree : x.store.partTree .qualified ⟨.stored slot, qualifiers⟩ =
        .qual (.unknown (.stored slot)) qualifiers := by
      rw [← tree_unfold, unfold_qual, unfold_of_typeNode?_eq_none node]
      rfl
    refine ⟨?_, [], (List.append_nil _).symm, ?_⟩
    · rw [tree, Tree.substitute, Tree.substitute, Tree.qualify, Qualifiers.none_union]
      simp
    · rw [tree]
      rfl

theorem comes_rewriteName {x : Session} (handed : ∀ m ∈ stack, m.Handed x.store) {name : NameId}
    (grounded : (x.store.unfold .name name).Grounded x.store) :
    Comes (stackAnswer (stack.map (·.trees x.store))) (x.store.partTree .name name) x
      (Rewriting.rewriteName (stacked stack) name x) := by
  rcases Rewriting.settled_or_nameNode?_eq_none x.store name with settled | node
  · exact comes_rewritePart (p := .name) handed settled grounded
  · rw [Rewriting.rewriteName_of_nameNode?_eq_none node]
    have tree : x.store.partTree .name name = .unknownName name := by
      rw [← tree_unfold, unfold_of_nameNode?_eq_none node]
      rfl
    refine ⟨?_, [], (List.append_nil _).symm, ?_⟩
    · rw [tree]
      rfl
    · rw [tree]
      rfl

end

/-! ### Renamed inputs -/

/-- The one part in its store is the other part in the other store, with its identifiers renamed,
and the stores gave out every atom and list in them. -/
structure Renamed (r : String → String) (s s' : Store) (p : Part) (h h' : p.Handle) : Prop where
  grounded : (s.unfold p h).Grounded s
  grounded' : (s'.unfold p h').Grounded s'
  tree : s'.partTree p h' = (s.partTree p h).rename r

/-- The names and types that the one map binds are those of the other, in order and renamed. A bound
type is one that its store gave out, or one that no store gives out: what is yet to be given out
would be whatever a rewrite stores next. -/
def BindingMap.Renamed (r : String → String) (s s' : Store) (m m' : BindingMap) : Prop :=
  List.Forall₂ (fun b b' => Respell.Renamed r s s' .name b.1 b'.1 ∧
    Respell.Renamed r s s' .qualified b.2 b'.2 ∧ s.Settled .qualified b.2 ∧
    s'.Settled .qualified b'.2) m.bindings m'.bindings

/-- The second run comes to what the first one comes to, renamed, and reports the same shapes. -/
structure RunsRenamed (r : String → String) {p : Part} (x x' : Session)
    (run run' : p.Handle × Session) : Prop where
  tree : run'.2.store.partTree p run'.1 = (run.2.store.partTree p run.1).rename r
  diagnostics : ∃ more more', run.2.diagnostics = x.diagnostics ++ more ∧
    run'.2.diagnostics = x'.diagnostics ++ more' ∧ more'.map (·.shape) = more.map (·.shape)

variable {r : String → String} {s s' : Store}

theorem forall_of_forall₂ {α β : Type} {rel : α → β → Prop} {as : List α} {bs : List β}
    (related : List.Forall₂ rel as bs) {pa : α → Prop} {pb : β → Prop}
    (each : ∀ a b, rel a b → pa a ∧ pb b) : (∀ a ∈ as, pa a) ∧ ∀ b ∈ bs, pb b := by
  induction related with
  | nil => exact ⟨List.forall_mem_nil _, List.forall_mem_nil _⟩
  | cons first _ ih =>
    exact ⟨List.forall_mem_cons.mpr ⟨(each _ _ first).1, ih.1⟩,
      List.forall_mem_cons.mpr ⟨(each _ _ first).2, ih.2⟩⟩

namespace BindingMap.Renamed

variable {m m' : BindingMap}

theorem handed (h : m.Renamed r s s' m') : m.Handed s ∧ m'.Handed s' := by
  obtain ⟨names, names'⟩ := forall_of_forall₂ h fun b b' both =>
    And.intro both.1.grounded both.1.grounded'
  obtain ⟨types, types'⟩ : (∀ b ∈ m.bindings, s.Gave .qualified b.2) ∧
      ∀ b ∈ m'.bindings, s'.Gave .qualified b.2 :=
    forall_of_forall₂ h fun b b' ⟨_, type, settled, settled'⟩ =>
      ⟨⟨settled, rfl, fun _ => type.grounded⟩, ⟨settled', rfl, fun _ => type.grounded'⟩⟩
  exact ⟨⟨names, types⟩, names', types'⟩

theorem trees (h : m.Renamed r s s' m') : m'.trees s' = (m.trees s).map (.rename r) := by
  rw [BindingMap.trees, BindingMap.trees, List.map_map]
  unfold BindingMap.Renamed at h
  generalize m.bindings = bindings at h ⊢
  generalize m'.bindings = bindings' at h ⊢
  induction h with
  | nil => rfl
  | cons first _ ih =>
    rw [List.map_cons, List.map_cons, ih]
    exact congrArg (· :: _) (congrArg₂ BindingTree.mk first.1.tree first.2.1.tree)

end BindingMap.Renamed

theorem renamed_stack {stack stack' : List BindingMap}
    (renamed : List.Forall₂ (BindingMap.Renamed r s s') stack stack') :
    ((∀ m ∈ stack, m.Handed s) ∧ ∀ m ∈ stack', m.Handed s') ∧
      stack'.map (·.trees s') = (stack.map (·.trees s)).map (·.map (.rename r)) := by
  refine ⟨forall_of_forall₂ renamed fun _ _ => BindingMap.Renamed.handed, ?_⟩
  induction renamed with
  | nil => rfl
  | cons first _ ih => rw [List.map_cons, List.map_cons, List.map_cons, ih, first.trees]

/-- A part and the renamed part, each interned in a store of its own. -/
theorem renamed_of_denotes {p : Part} {tree : Tree p} {h h' : p.Handle} (d : s.Denotes True tree h)
    (d' : s'.Denotes True (tree.rename r) h') : Renamed r s s' p h h' where
  grounded := d.grounded trivial
  grounded' := d'.grounded trivial
  tree := by rw [d'.reads, d.reads]

theorem BindingMap.Denotes.renamed {m m' : BindingMap} {bindings : List BindingTree}
    (d : m.Denotes s bindings) (d' : m'.Denotes s' (bindings.map (.rename r))) :
    m.Renamed r s s' m' := by
  unfold BindingMap.Denotes at d d'
  unfold BindingMap.Renamed
  generalize m.bindings = entries at d ⊢
  generalize m'.bindings = entries' at d' ⊢
  induction d generalizing entries' with
  | nil =>
    cases d'
    exact .nil
  | cons first _ ih =>
    cases d' with
    | cons first' others' =>
      exact .cons ⟨renamed_of_denotes first.1 first'.1, renamed_of_denotes first.2 first'.2,
        first.2.settled, first'.2.settled⟩ (ih _ others')

/-- What comes of renamed inputs is renamed. -/
theorem Comes.renamed {answer answer' : Tree .name → Option (Tree .qualified)}
    (answers : ∀ name, answer' (name.rename r) = (answer name).map (.rename r)) {p : Part}
    {x x' : Session} {tree : Tree p} {run run' : p.rewritten.Handle × Session}
    (comes : Comes answer tree x run) (comes' : Comes answer' (tree.rename r) x' run') :
    RunsRenamed r x x' run run' := by
  obtain ⟨more, reported, shapes⟩ := comes.diagnostics
  obtain ⟨more', reported', shapes'⟩ := comes'.diagnostics
  refine ⟨?_, more, more', reported, reported', ?_⟩
  · rw [comes'.reads, Tree.substitute_rename answers, comes.reads]
  · have marked : ∀ name : Tree .name, voiding (fun name => (answer' name).isSome) (name.rename r) =
        (voiding (fun name => (answer name).isSome) name).map (.rename r) := by
      intro name
      rw [voiding, voiding, answers, Option.isSome_map]
      cases (answer name).isSome <;> rfl
    rw [shapes', shapes, Tree.substitute_rename marked, Tree.shapes_rename]

/-- The bindings and then the type, interned in a new store. -/
def interned (bindings : List BindingTree) (type : Tree .qualified) :
    BindingMap × QualType × Session :=
  let (m, s) := BindingTree.internAll bindings .empty .initial
  let (t, s) := type.intern s
  (m, t, ⟨s, #[]⟩)

theorem denotes_interned {bindings : List BindingTree} {type : Tree .qualified}
    (bound : ∀ b ∈ bindings, b.name.Plain ∧ b.type.Plain) (plain : type.Plain) :
    (interned bindings type).1.Denotes (interned bindings type).2.2.store bindings ∧
      (interned bindings type).2.2.store.Denotes True type (interned bindings type).2.1 := by
  have empty : BindingMap.empty.Denotes .initial [] := .nil
  obtain ⟨-, map⟩ := yields_internAll bound empty .initial (.refl _)
  obtain ⟨grows, d⟩ := @yields_intern True _ type plain
    (BindingTree.internAll bindings .empty .initial).2 _ (.refl _)
  exact ⟨map.extend grows, d⟩

/-- All ordinary types and bindings can be renamed and interned again, elsewhere. -/
theorem renamed_interned (r : String → String) {bindings : List BindingTree}
    {type : Tree .qualified} (bound : ∀ b ∈ bindings, b.name.Plain ∧ b.type.Plain)
    (plain : type.Plain) :
    let given := interned bindings type
    let given' := interned (bindings.map (.rename r)) (type.rename r)
    given.1.Renamed r given.2.2.store given'.2.2.store given'.1 ∧
      Renamed r given.2.2.store given'.2.2.store .qualified given.2.1 given'.2.1 := by
  have bound' : ∀ b ∈ bindings.map (BindingTree.rename r), b.name.Plain ∧ b.type.Plain := by
    refine List.forall_mem_map.mpr fun b mem => ?_
    exact ⟨Tree.plain_rename (bound b mem).1, Tree.plain_rename (bound b mem).2⟩
  obtain ⟨map, denotes⟩ := denotes_interned bound plain
  obtain ⟨map', denotes'⟩ := denotes_interned bound' (Tree.plain_rename (r := r) plain)
  exact ⟨map.renamed map', renamed_of_denotes denotes denotes'⟩

/-- A binding of an identifier that every store has from the start. -/
def boundVoid : List BindingTree := [⟨.identifier "T", .qual .void .none⟩]

def constNamed : Tree .qualified := .qual (.named (.identifier "T")) (.single .const)

/-- The identifier `T` and the empty one, exchanged. -/
def exchanged (text : String) : String :=
  if text = "T" then "" else if text = "" then "T" else text

theorem exchanged_injective : Function.Injective exchanged := by
  intro a b same
  unfold exchanged at same
  grind

example : exchanged "T" = "" := by decide

end Respell

import Respell.Proofs.Denotation

/-! What interning yields for each shape of tree. Every lemma takes parts that denote trees and says
which tree the new handle denotes; interning a tree and rewriting a type are chains of these steps.
Main statement: interning a tree that can be written yields an exact handle of the tree
(`yields_intern`). -/
namespace Respell.Store

variable {s : Store} {exact : Prop}

/-! ### Types -/

theorem denotes_undefined : s.Denotes exact .undefined TypeId.undefined :=
  ⟨Nat.zero_le _, by rw [partTree, typeTree], fun _ => by simp [Unfolding.Grounded]⟩

theorem denotes_void : s.Denotes exact .void TypeId.void :=
  ⟨Nat.zero_le _, by rw [partTree, typeTree], fun _ => by simp [Unfolding.Grounded]⟩

theorem yields_integer (kind : IntegerKind) :
    Yields id s (internType (.integer kind)) fun t h => t.Denotes exact (.integer kind) h :=
  yields_internType (fits_type (by simp [Node.ranks]))
    (fun _ _ => rfl) (fun _ _ _ => trivial)

theorem yields_float (kind : FloatKind) :
    Yields id s (internType (.float kind)) fun t h => t.Denotes exact (.float kind) h :=
  yields_internType (fits_type (by simp [Node.ranks]))
    (fun _ _ => rfl) (fun _ _ _ => trivial)

theorem yields_pointer {tree : Tree .qualified} {element : QualType}
    (d : s.Denotes exact tree element) :
    Yields id s (internType (.pointer element)) fun t h => t.Denotes exact (.pointer tree) h := by
  apply yields_internType
    (fits_type (by simpa [Node.ranks, Settled] using d.settled))
  · intro t e
    simp only [unfoldNode, Unfolding.tree, tree_unfold, (d.extend e).reads]
  · intro ex t e
    exact (d.extend e).grounded ex

theorem yields_reference {tree : Tree .qualified} {element : QualType}
    (d : s.Denotes exact tree element) :
    Yields id s (internType (.reference element)) fun t h =>
      t.Denotes exact (.reference tree) h := by
  apply yields_internType
    (fits_type (by simpa [Node.ranks, Settled] using d.settled))
  · intro t e
    simp only [unfoldNode, Unfolding.tree, tree_unfold, (d.extend e).reads]
  · intro ex t e
    exact (d.extend e).grounded ex

theorem yields_array {tree : Tree .qualified} {element : QualType} (size : UInt32)
    (d : s.Denotes exact tree element) :
    Yields id s (internType (.array element size)) fun t h =>
      t.Denotes exact (.array tree size) h := by
  apply yields_internType
    (fits_type (by simpa [Node.ranks, Settled] using d.settled))
  · intro t e
    simp only [unfoldNode, Unfolding.tree, tree_unfold, (d.extend e).reads]
  · intro ex t e
    exact (d.extend e).grounded ex

theorem yields_memberPointer {outer : Tree .name} {tree : Tree .qualified} {owner : NameId}
    {element : QualType} (o : s.Denotes exact outer owner) (d : s.Denotes exact tree element) :
    Yields id s (internType (.memberPointer owner element)) fun t h =>
      t.Denotes exact (.memberPointer outer tree) h := by
  refine yields_internType (fits_type ?_) ?_ ?_
  · simpa [Node.ranks, Settled] using And.intro o.settled d.settled
  · intro t e
    simp only [unfoldNode, Unfolding.tree, tree_unfold, (o.extend e).reads, (d.extend e).reads]
  · intro ex t e
    exact ⟨(o.extend e).grounded ex, (d.extend e).grounded ex⟩

theorem yields_named {tree : Tree .name} {name : NameId} (d : s.Denotes exact tree name) :
    Yields id s (internType (.named name)) fun t h => t.Denotes exact (.named tree) h := by
  apply yields_internType
    (fits_type (by simpa [Node.ranks, Settled] using d.settled))
  · intro t e
    simp only [unfoldNode, Unfolding.tree, tree_unfold, (d.extend e).reads]
  · intro ex t e
    exact (d.extend e).grounded ex

theorem yields_function {outer : Tree .optionalName} {tree : Tree .qualified}
    {list : Tree .arguments} {f : Signature} (name : s.Denotes exact outer f.name)
    (result : s.Denotes exact tree f.result) (arguments : s.Denotes exact list f.arguments) :
    Yields id s (functionType f) fun t h =>
      t.Denotes exact (.function outer tree list f.attributes) h := by
  apply (yields_internSignature name.settled result.settled arguments.settled).bind
  intro t signature e node
  have shape : t.signature? signature = some f := by simp only [Interner.signature?, node]
  refine yields_internType (fits_type ?_) ?_ ?_
  · simpa [Node.ranks] using covers_of_node? node
  · intro u e'
    have grows := e.trans e'
    simp only [unfoldNode, (signature?_extend e' (covers_of_node? node)).trans shape,
      Unfolding.tree, tree_unfold, (name.extend grows).reads, (result.extend grows).reads,
      (arguments.extend grows).reads]
  · intro ex u e'
    have grows := e.trans e'
    simp only [unfoldNode, (signature?_extend e' (covers_of_node? node)).trans shape]
    exact ⟨(name.extend grows).grounded ex, (result.extend grows).grounded ex,
      (arguments.extend grows).grounded ex⟩

theorem denotes_qual {tree : Tree .type} {type : TypeId} (qualifiers : Qualifiers)
    (d : s.Denotes exact tree type) :
    s.Denotes exact (.qual tree qualifiers) (⟨type, qualifiers⟩ : QualType) := by
  refine ⟨d.settled, ?_, ?_⟩
  · rw [partTree, qualTree]
    exact congrArg (Tree.qual · qualifiers) d.reads
  · intro ex
    rw [unfold_qual]
    exact d.grounded ex

theorem Denotes.type {tree : Tree .type} {qualifiers : Qualifiers} {t : QualType}
    (d : s.Denotes exact (.qual tree qualifiers) t) :
    s.Denotes exact tree t.type ∧ t.qualifiers = qualifiers := by
  have reads := d.reads
  rw [partTree, qualTree] at reads
  obtain ⟨read, same⟩ := Tree.qual.inj reads
  refine ⟨⟨d.settled, read, ?_⟩, same⟩
  intro ex
  have grounded := d.grounded ex
  rw [unfold_qual] at grounded
  exact grounded

theorem Denotes.isUndefined {tree : Tree .qualified} {t : QualType}
    (d : s.Denotes exact tree t) : t.isUndefined = tree.isUndefined := by
  rw [← d.reads, isUndefined_partTree]

/-! ### Names -/

theorem yields_identifier {atom : Atom} {text : String} (known : s.texts.text? atom = some text) :
    Yields id s (internName (.identifier atom)) fun t h =>
      t.Denotes exact (.identifier text) h := by
  refine yields_internName (fits_of_forall ?_ (by simp [Node.ranks])) ?_ ?_
  · simpa [Node.atoms] using coversAtom_of_text? known
  · intro t e
    simp only [unfoldName, Unfolding.tree, text_of_text? (e.texts known)]
  · intro _ t e
    simp only [unfoldName, Unfolding.Grounded, text_of_text? (e.texts known)]
    exact e.texts known

theorem yields_destructor {atom : Atom} {text : String} (known : s.texts.text? atom = some text) :
    Yields id s (internName (.destructor atom)) fun t h =>
      t.Denotes exact (.destructor text) h := by
  refine yields_internName (fits_of_forall ?_ (by simp [Node.ranks])) ?_ ?_
  · simpa [Node.atoms] using coversAtom_of_text? known
  · intro t e
    simp only [unfoldName, Unfolding.tree, text_of_text? (e.texts known)]
  · intro _ t e
    simp only [unfoldName, Unfolding.Grounded, text_of_text? (e.texts known)]
    exact e.texts known

theorem yields_operator (kind : OperatorKind) :
    Yields id s (internName (.operator kind)) fun t h => t.Denotes exact (.operator kind) h :=
  yields_internName (fits_of_forall (by simp [Node.atoms]) (by simp [Node.ranks]))
    (fun _ _ => rfl) (fun _ _ _ => trivial)

theorem yields_qualified {outer inner : Tree .name} {base member : NameId}
    (o : s.Denotes exact outer base) (i : s.Denotes exact inner member) :
    Yields id s (internName (.qualified base member)) fun t h =>
      t.Denotes exact (.qualified outer inner) h := by
  refine yields_internName (fits_of_forall (by simp [Node.atoms]) ?_) ?_ ?_
  · simpa [Node.ranks, Settled] using And.intro o.settled i.settled
  · intro t e
    simp only [unfoldName, Unfolding.tree, tree_unfold, (o.extend e).reads, (i.extend e).reads]
  · intro ex t e
    exact ⟨(o.extend e).grounded ex, (i.extend e).grounded ex⟩

theorem yields_conversion {tree : Tree .qualified} {target : QualType}
    (d : s.Denotes exact tree target) :
    Yields id s (internName (.conversion target)) fun t h =>
      t.Denotes exact (.conversion tree) h := by
  apply yields_internName
    (fits_of_forall (by simp [Node.atoms]) (by simpa [Node.ranks, Settled] using d.settled))
  · intro t e
    simp only [unfoldName, Unfolding.tree, tree_unfold, (d.extend e).reads]
  · intro ex t e
    exact (d.extend e).grounded ex

theorem yields_template {atom : Atom} {text : String} {tree : Tree .types} {args : List QualType}
    (known : s.texts.text? atom = some text) (d : s.Denotes exact tree args) :
    Yields id s (templateName atom args) fun t h => t.Denotes exact (.template text tree) h := by
  apply (yields_internTypeList d.settled).bind
  intro t list e node
  have typeList {u : Store} (e' : t.Extends u) : u.typeList list = args := by
    simp only [Interner.typeList, e'.nodes node]
  refine yields_internName (fits_of_forall ?_ ?_) ?_ ?_
  · simpa [Node.atoms] using coversAtom_of_text? (e.texts known)
  · simpa [Node.ranks] using covers_of_node? node
  · intro u e'
    have grows := e.trans e'
    simp only [unfoldName, typeList e', Unfolding.tree, tree_unfold,
      text_of_text? (grows.texts known), (d.extend grows).reads]
  · intro ex u e'
    have grows := e.trans e'
    simp only [unfoldName, typeList e', text_of_text? (grows.texts known)]
    exact ⟨grows.texts known, ⟨args, e'.nodes node⟩, (d.extend grows).grounded ex⟩

theorem yields_selector {tree : Tree .names} {parts : List NameId} (hasArguments : Bool)
    (d : s.Denotes exact tree parts) :
    Yields id s (selectorName parts hasArguments) fun t h =>
      t.Denotes exact (.selector tree hasArguments) h := by
  apply (yields_internNameList d.settled).bind
  intro t list e node
  have nameList {u : Store} (e' : t.Extends u) : u.nameList list = parts := by
    simp only [Interner.nameList, e'.nodes node]
  refine yields_internName (fits_of_forall (by simp [Node.atoms]) ?_) ?_ ?_
  · simpa [Node.ranks] using covers_of_node? node
  · intro u e'
    simp only [unfoldName, nameList e', Unfolding.tree, tree_unfold, (d.extend (e.trans e')).reads]
  · intro ex u e'
    simp only [unfoldName, nameList e']
    exact ⟨⟨parts, e'.nodes node⟩, (d.extend (e.trans e')).grounded ex⟩

/-! ### Lists -/

theorem denotes_noName : s.Denotes exact .noName (none : Option NameId) :=
  ⟨Nat.zero_le _, by rw [partTree, optionalNameTree], fun _ => by simp [Unfolding.Grounded]⟩

theorem denotes_justName {tree : Tree .name} {name : NameId} (d : s.Denotes exact tree name) :
    s.Denotes exact (.justName tree) (some name) := by
  refine ⟨d.settled, ?_, ?_⟩
  · rw [partTree, optionalNameTree]
    exact congrArg Tree.justName d.reads
  · intro ex
    rw [unfold_justName]
    exact d.grounded ex

theorem denotes_noTypes : s.Denotes exact .noTypes ([] : List QualType) :=
  ⟨by simp [Settled], rfl, fun _ => by simp [Unfolding.Grounded]⟩

theorem denotes_consType {tree : Tree .qualified} {trees : Tree .types} {first : QualType}
    {rest : List QualType} (d : s.Denotes exact tree first) (ds : s.Denotes exact trees rest) :
    s.Denotes exact (.consType tree trees) (first :: rest) := by
  constructor
  · exact List.forall_mem_cons.mpr ⟨d.settled, ds.settled⟩
  · rw [← d.reads, ← ds.reads]
    rfl
  · intro ex
    rw [unfold_consType]
    exact ⟨d.grounded ex, ds.grounded ex⟩

theorem denotes_noNames : s.Denotes exact .noNames ([] : List NameId) :=
  ⟨by simp [Settled], rfl, fun _ => by simp [Unfolding.Grounded]⟩

theorem denotes_consName {tree : Tree .name} {trees : Tree .names} {first : NameId}
    {rest : List NameId} (d : s.Denotes exact tree first) (ds : s.Denotes exact trees rest) :
    s.Denotes exact (.consName tree trees) (first :: rest) := by
  constructor
  · exact List.forall_mem_cons.mpr ⟨d.settled, ds.settled⟩
  · rw [← d.reads, ← ds.reads]
    rfl
  · intro ex
    rw [unfold_consName]
    exact ⟨d.grounded ex, ds.grounded ex⟩

theorem denotes_noArguments : s.Denotes exact .noArguments ([] : List Argument) :=
  ⟨by simp [Settled], rfl, fun _ => by simp [Unfolding.Grounded]⟩

theorem denotes_consArgument {outer : Tree .optionalName} {tree : Tree .qualified}
    {trees : Tree .arguments} {a : Argument} {rest : List Argument}
    (name : s.Denotes exact outer a.name) (type : s.Denotes exact tree a.type)
    (covers : ∀ d ∈ a.defaultValue, s.CoversAtom d)
    (known : exact → ∀ d ∈ a.defaultValue, s.texts.text? d = some (s.text d))
    (others : s.Denotes exact trees rest) :
    s.Denotes exact
      (.consArgument outer tree (a.defaultValue.map s.text) a.storage trees) (a :: rest) := by
  constructor
  · have covered : s.Covers a.rank := Nat.max_le.mpr ⟨name.settled, type.settled⟩
    exact List.forall_mem_cons.mpr ⟨⟨covered, covers⟩, others.settled⟩
  · rw [← name.reads, ← type.reads, ← others.reads]
    simp only [partTree, List.map_cons, Tree.ofArgs, argTree]
  · intro ex
    rw [unfold_consArgument]
    refine ⟨name.grounded ex, type.grounded ex, ?_, others.grounded ex⟩
    intro d hd
    obtain ⟨atom, ha, rfl⟩ := Option.map_eq_some_iff.mp hd
    exact known ex atom ha

end Respell.Store

namespace Respell

/-- Every leaf of the tree has a spelling of its own: none is the absence of a type, a declared type
or a handle without a node. -/
def Tree.Plain : {p : Part} → Tree p → Prop
  | _, void | _, integer _ | _, float _ => True
  | _, pointer element | _, reference element | _, array element _ => element.Plain
  | _, memberPointer owner element => owner.Plain ∧ element.Plain
  | _, named name => name.Plain
  | _, function name result arguments _ => name.Plain ∧ result.Plain ∧ arguments.Plain
  | _, undefined | _, declared _ _ | _, shapeless _ | _, unknown _ | _, unknownName _ => False
  | _, qual type _ => type.Plain
  | _, identifier _ | _, destructor _ | _, operator _ => True
  | _, qualified base member => base.Plain ∧ member.Plain
  | _, template _ args => args.Plain
  | _, conversion target => target.Plain
  | _, selector parts _ => parts.Plain
  | _, noName | _, noTypes | _, noNames | _, noArguments => True
  | _, justName name => name.Plain
  | _, consType first rest => first.Plain ∧ rest.Plain
  | _, consName first rest => first.Plain ∧ rest.Plain
  | _, consArgument name type _ _ rest => name.Plain ∧ type.Plain ∧ rest.Plain

namespace Store

variable {s : Store} {exact : Prop}

theorem yields_consArgument {outer : Tree .optionalName} {tree : Tree .qualified}
    {trees : Tree .arguments} {a : Argument} {text : Option String}
    {act : Storing (List Argument)} (name : s.Denotes exact outer a.name)
    (type : s.Denotes exact tree a.type)
    (known : a.defaultValue.map s.texts.text? = text.map some)
    (others : Yields id s act fun t h => t.Denotes exact trees h) :
    Yields id s (do let rest ← act; pure (a :: rest)) fun t h =>
      t.Denotes exact (.consArgument outer tree text a.storage trees) h := by
  apply others.bind
  intro t rest e ds
  refine .pure fun u e₁ => ?_
  have grows := e.trans e₁
  have texts : ∀ d ∈ a.defaultValue, ∃ x, text = some x ∧ u.texts.text? d = some x := by
    intro d hd
    rw [hd] at known
    obtain ⟨x, rfl, h⟩ := Option.map_eq_some_iff.mp known.symm
    exact ⟨x, rfl, grows.texts h.symm⟩
  have same : a.defaultValue.map u.text = text := by
    cases hd : a.defaultValue with
    | none =>
      rw [hd] at known
      exact (Option.map_eq_none_iff.mp known.symm).symm
    | some d =>
      obtain ⟨x, rfl, h⟩ := texts d hd
      exact congrArg some (text_of_text? h)
  rw [← same]
  refine denotes_consArgument (name.extend grows) (type.extend grows) ?_ ?_ (ds.extend e₁)
  · intro d hd
    obtain ⟨x, -, h⟩ := texts d hd
    exact coversAtom_of_text? h
  · intro _ d hd
    obtain ⟨x, -, h⟩ := texts d hd
    rw [h, text_of_text? h]

theorem yields_intern {p : Part} (tree : Tree p) (plain : tree.Plain) (s : Store) :
    Yields id s tree.intern fun t h => t.Denotes exact tree h := by
  induction tree generalizing s with
  | void => exact .pure fun _ _ => denotes_void
  | integer kind => exact yields_integer kind
  | float kind => exact yields_float kind
  | pointer _ ih =>
    apply (ih plain s).bind
    intro t element e d
    exact yields_pointer d
  | reference _ ih =>
    apply (ih plain s).bind
    intro t element e d
    exact yields_reference d
  | array _ size ih =>
    apply (ih plain s).bind
    intro t element e d
    exact yields_array size d
  | memberPointer _ _ ihOwner ihElement =>
    apply (ihOwner plain.1 s).bind
    intro t owner e o
    apply (ihElement plain.2 t).bind
    intro u element e₁ d
    exact yields_memberPointer (o.extend e₁) d
  | named _ ih =>
    apply (ih plain s).bind
    intro t name e d
    exact yields_named d
  | function _ _ _ attributes ihName ihResult ihArguments =>
    obtain ⟨plainName, plainResult, plainArguments⟩ := plain
    apply (ihName plainName s).bind
    intro t name e dn
    apply (ihResult plainResult t).bind
    intro u result e₁ dr
    apply (ihArguments plainArguments u).bind
    intro v arguments e₂ da
    exact yields_function (f := ⟨name, result, arguments, attributes⟩)
      (dn.extend (e₁.trans e₂)) (dr.extend e₂) da
  | undefined | declared | shapeless | unknown | unknownName => exact plain.elim
  | qual _ qualifiers ih =>
    apply (ih plain s).bind
    intro t type e d
    exact .pure fun u e₁ => denotes_qual qualifiers (d.extend e₁)
  | identifier text =>
    apply (yields_internText text).bind
    intro t atom e known
    exact yields_identifier known
  | destructor text =>
    apply (yields_internText text).bind
    intro t atom e known
    exact yields_destructor known
  | qualified _ _ ihBase ihMember =>
    apply (ihBase plain.1 s).bind
    intro t base e o
    apply (ihMember plain.2 t).bind
    intro u member e₁ i
    exact yields_qualified (o.extend e₁) i
  | template text _ ih =>
    apply (yields_internText text).bind
    intro t atom e known
    apply (ih plain t).bind
    intro u args e₁ d
    exact yields_template (e₁.texts known) d
  | operator kind => exact yields_operator kind
  | conversion _ ih =>
    apply (ih plain s).bind
    intro t target e d
    exact yields_conversion d
  | selector _ hasArguments ih =>
    apply (ih plain s).bind
    intro t parts e d
    exact yields_selector hasArguments d
  | noName => exact .pure fun _ _ => denotes_noName
  | justName _ ih =>
    apply (ih plain s).bind
    intro t name e d
    exact .pure fun u e₁ => denotes_justName (d.extend e₁)
  | noTypes => exact .pure fun _ _ => denotes_noTypes
  | noNames => exact .pure fun _ _ => denotes_noNames
  | noArguments => exact .pure fun _ _ => denotes_noArguments
  | consType _ _ ihFirst ihRest =>
    apply (ihFirst plain.1 s).bind
    intro t first e d
    apply (ihRest plain.2 t).bind
    intro u rest e₁ ds
    exact .pure fun v e₂ => denotes_consType (d.extend (e₁.trans e₂)) (ds.extend e₂)
  | consName _ _ ihFirst ihRest =>
    apply (ihFirst plain.1 s).bind
    intro t first e d
    apply (ihRest plain.2 t).bind
    intro u rest e₁ ds
    exact .pure fun v e₂ => denotes_consName (d.extend (e₁.trans e₂)) (ds.extend e₂)
  | consArgument _ _ text storage _ ihName ihType ihRest =>
    obtain ⟨plainName, plainType, plainRest⟩ := plain
    apply (ihName plainName s).bind
    intro t name e dn
    apply (ihType plainType t).bind
    intro u type e₁ dt
    cases text with
    | none =>
      exact yields_consArgument (a := ⟨name, type, none, storage⟩) (dn.extend e₁) dt rfl
        (ihRest plainRest u)
    | some text =>
      apply (yields_internText text).bind
      intro v atom e₂ known
      exact yields_consArgument (a := ⟨name, type, some atom, storage⟩)
        (dn.extend (e₁.trans e₂)) (dt.extend e₂) (congrArg some known) (ihRest plainRest v)

end Store
end Respell

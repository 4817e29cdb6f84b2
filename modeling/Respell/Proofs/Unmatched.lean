import Respell.Proofs.Providers

/-! Rewrites in which nothing matches. The rewriter rebuilds every node and interns every text and
list anew; where no named type is answered and the store gave out all atoms and lists, each of these
finds what is there. Main statement: a rewrite in which nothing matches gives its handle back and
changes nothing (`rewrite_unmatched`). -/
namespace Respell

open Store

variable {e : Environment} {s : Store}

namespace Unfolding

/-- The names of all named types in the unfolding satisfy the one property, and all its positions
the other. -/
def Everywhere (named : NameId → Prop) (position : Unfolding .type → Qualifiers → Prop) :
    {p : Part} → Unfolding p → Prop
  | _, undefined | _, void | _, integer _ | _, float _ => True
  | _, pointer element | _, reference element | _, array element _ =>
    element.Everywhere named position
  | _, memberPointer owner element =>
    owner.Everywhere named position ∧ element.Everywhere named position
  | _, .named handle name => named handle ∧ name.Everywhere named position
  | _, function name result arguments _ =>
    name.Everywhere named position ∧ result.Everywhere named position ∧
      arguments.Everywhere named position
  | _, shapeless _ | _, declared _ _ | _, unknown _ => True
  | _, qual type qualifiers => position type qualifiers ∧ type.Everywhere named position
  | _, identifier _ _ | _, destructor _ _ | _, operator _ => True
  | _, qualified base member => base.Everywhere named position ∧ member.Everywhere named position
  | _, template _ _ _ args => args.Everywhere named position
  | _, conversion target => target.Everywhere named position
  | _, selector _ parts _ => parts.Everywhere named position
  | _, unknownName _ | _, noName => True
  | _, justName name => name.Everywhere named position
  | _, noTypes | _, noNames | _, noArguments => True
  | _, consType first rest => first.Everywhere named position ∧ rest.Everywhere named position
  | _, consName first rest => first.Everywhere named position ∧ rest.Everywhere named position
  | _, consArgument name type _ _ rest =>
    name.Everywhere named position ∧ type.Everywhere named position ∧
      rest.Everywhere named position

theorem everywhere_of_forall {named : NameId → Prop}
    {position : Unfolding .type → Qualifiers → Prop} (each : ∀ n, named n)
    (all : ∀ type qualifiers, position type qualifiers) {p : Part} (u : Unfolding p) :
    u.Everywhere named position := by
  induction u <;> simp only [Everywhere, and_self, *]

theorem Everywhere.mono {named named' : NameId → Prop}
    {position : Unfolding .type → Qualifiers → Prop} (weaker : ∀ n, named n → named' n) {p : Part}
    {u : Unfolding p} (everywhere : u.Everywhere named position) : u.Everywhere named' position := by
  induction u with
  | undefined | void | integer | float | shapeless | declared | unknown => trivial
  | identifier | destructor | operator | unknownName => trivial
  | noName | noTypes | noNames | noArguments => trivial
  | pointer _ ih | reference _ ih | array _ _ ih => exact ih everywhere
  | template _ _ _ _ ih | conversion _ ih | selector _ _ _ ih | justName _ ih => exact ih everywhere
  | named handle _ ih => exact ⟨weaker handle everywhere.1, ih everywhere.2⟩
  | qual _ _ ih => exact ⟨everywhere.1, ih everywhere.2⟩
  | memberPointer _ _ ihFirst ihRest | qualified _ _ ihFirst ihRest
  | consType _ _ ihFirst ihRest | consName _ _ ihFirst ihRest =>
    exact ⟨ihFirst everywhere.1, ihRest everywhere.2⟩
  | function _ _ _ _ ihName ihType ihRest | consArgument _ _ _ _ _ ihName ihType ihRest =>
    exact ⟨ihName everywhere.1, ihType everywhere.2.1, ihRest everywhere.2.2⟩

/-- The absence of a type is not qualified. -/
def Bare (type : Unfolding .type) (qualifiers : Qualifiers) : Prop :=
  type = undefined → qualifiers = .none

end Unfolding

/-! ### No change -/

/-- Run on the store, the computation gives the value and leaves the store as it is. -/
def Leaves (s : Store) {α : Type} (act : Rewriting α) (value : α) : Prop :=
  ∀ x : Session, x.store = s → (act x).1 = value ∧ (act x).2.store = s

namespace Leaves

variable {α β : Type} {act : Rewriting α} {value : α}

theorem pure (value : α) : Leaves s (pure value) value := fun _ same => ⟨rfl, same⟩

theorem bind {next : α → Rewriting β} {result : β} (h : Leaves s act value)
    (then_ : Leaves s (next value) result) : Leaves s (act >>= next) result := by
  intro x same
  obtain ⟨given, kept⟩ := h x same
  obtain ⟨given', kept'⟩ := then_ (act x).2 kept
  rw [← given] at given' kept'
  exact ⟨given', kept'⟩

theorem storing {act : Storing α} (h : act s = (value, s)) :
    Leaves s (Rewriting.storing act) value := by
  rintro x rfl
  exact ⟨congrArg Prod.fst h, congrArg Prod.snd h⟩

theorem emit (event : Event) : Leaves s (Rewriting.emit event) () := fun _ same => ⟨rfl, same⟩

theorem congr {act' : Rewriting α} (same : ∀ x : Session, x.store = s → act x = act' x)
    (h : Leaves s act' value) : Leaves s act value := by
  intro x start
  rw [same x start]
  exact h x start

end Leaves

namespace Rewriting

theorem leaves_rebuilt {slot : Slot} {n : TypeNode} (node : s.typeNode? slot = some n) :
    Leaves s (rebuilt n) ⟨.stored slot, .none⟩ :=
  (Leaves.storing (internType_of_typeNode? node)).bind (.pure _)

theorem leaves_internName {name : NameId} {n : NameNode} (node : s.nameNode? name = some n) :
    Leaves s (storing (internName n)) name :=
  .storing (internName_of_nameNode? node)

theorem leaves_reintern {atom : Atom} (known : s.texts.text? atom = some (s.text atom)) :
    Leaves s (reintern atom) atom := by
  rintro x rfl
  exact Leaves.storing (internText_of_text? known) x rfl

theorem leaves_rewriteType {slot : Slot} {n : TypeNode} {value : QualType}
    (node : s.typeNode? slot = some n)
    (h : Leaves s (rewriteNode e s (.stored slot) n) value) :
    Leaves s (rewriteType e (.stored slot)) value := by
  refine .congr ?_ h
  rintro x rfl
  exact rewriteType_of_typeNode? node

theorem leaves_rewriteName {name value : NameId} {n : NameNode} (node : s.nameNode? name = some n)
    (h : Leaves s (rewriteNameNode e s n) value) : Leaves s (rewriteName e name) value := by
  refine .congr ?_ h
  rintro x rfl
  exact rewriteName_of_nameNode? node

/-- The handle as a rewritten one: a type has no qualifiers of its own. -/
def asRewritten : (p : Part) → p.Handle → p.rewritten.Handle
  | .type, t => ⟨t, .none⟩
  | .qualified, t => t
  | .name, n => n
  | .optionalName, n => n
  | .types, ts => ts
  | .names, ns => ns
  | .arguments, as => as

theorem leaves_rewriteQual {type : QualType}
    (h : Leaves s (rewriteType e type.type) ⟨type.type, .none⟩)
    (plain : type.type = .undefined → type.qualifiers = .none) :
    Leaves s (rewriteQual e type) type := by
  rw [rewriteQual]
  apply h.bind
  obtain ⟨type, qualifiers⟩ := type
  by_cases absent : type = .undefined
  · obtain rfl : qualifiers = .none := plain absent
    subst absent
    exact .pure _
  · have present : QualType.isUndefined ⟨type, .none⟩ = false := by
      simpa [QualType.isUndefined] using absent
    have same : QualType.qualify ⟨type, .none⟩ qualifiers = ⟨type, qualifiers⟩ := by
      rw [QualType.qualify, Qualifiers.none_union]
    rw [present, same]
    exact .pure _

theorem leaves_rewritePart (standard : ∀ p ∈ e.providers, p.Standard) (p : Part) (h : p.Handle)
    (grounded : (s.unfold p h).Grounded s)
    (unmatched : (s.unfold p h).Everywhere (e.Unanswered s) Unfolding.Bare) :
    Leaves s (rewritePart e p h) (asRewritten p h) := by
  -- Every part gives its own handle back, so the node that is interned last is the one of `h`.
  induction p, h using s.part_induction with
  | undefined | void | reserved =>
    simp only [rewritePart, rewriteType]
    exact .pure _
  | unknown slot node =>
    refine .congr ?_ (.pure _)
    rintro x rfl
    exact rewriteType_of_typeNode?_eq_none node
  | integer slot kind node => exact leaves_rewriteType node (leaves_rebuilt node)
  | float slot kind node => exact leaves_rewriteType node (leaves_rebuilt node)
  | declared slot shape symbol node =>
    exact leaves_rewriteType node ((Leaves.emit _).bind (.pure _))
  | pointer slot element node ih | reference slot element node ih
  | array slot element size node ih =>
    rw [unfold_of_typeNode? node] at grounded unmatched
    exact leaves_rewriteType node ((ih grounded unmatched).bind (leaves_rebuilt node))
  | memberPointer slot owner element node ihOwner ihElement =>
    rw [unfold_of_typeNode? node] at grounded unmatched
    have outer := ihOwner grounded.1 unmatched.1
    have inner := ihElement grounded.2 unmatched.2
    exact leaves_rewriteType node (outer.bind (inner.bind (leaves_rebuilt node)))
  | named slot name node ih =>
    rw [unfold_of_typeNode? node] at grounded unmatched
    obtain ⟨unanswered, inside⟩ := unmatched
    have asked : Leaves s (storing (e.ask name)) (e.ask name s).1 :=
      .storing (Prod.ext rfl (unanswered.unchanged standard))
    apply leaves_rewriteType node
    refine asked.bind ((Leaves.emit _).bind ?_)
    rw [if_pos (show (e.ask name s).1.type.isUndefined = true from unanswered)]
    exact (ih grounded inside).bind (leaves_rebuilt node)
  | shapeless slot signature node shape =>
    apply leaves_rewriteType node
    simp only [rewriteNode, shape]
    exact .pure _
  | function slot signature node f shape ihName ihResult ihArguments =>
    rw [unfold_of_typeNode? node] at grounded unmatched
    simp only [unfoldNode, shape] at grounded unmatched
    have name := ihName grounded.1 unmatched.1
    have result := ihResult grounded.2.1 unmatched.2.1
    have arguments := ihArguments grounded.2.2 unmatched.2.2
    have again : functionType f s = (.stored slot, s) := by
      rw [functionType, bind_eq (internSignature_of_signature? shape)]
      exact internType_of_typeNode? node
    apply leaves_rewriteType node
    simp only [rewriteNode, shape]
    exact name.bind (result.bind (arguments.bind ((Leaves.storing again).bind (.pure _))))
  | qual t ih =>
    rw [unfold_qual] at grounded unmatched
    obtain ⟨plain, inside⟩ := unmatched
    refine leaves_rewriteQual (ih grounded inside) fun absent => plain ?_
    rw [absent, unfold_undefined]
  | unknownName n node =>
    refine .congr ?_ (.pure _)
    rintro x rfl
    exact rewriteName_of_nameNode?_eq_none node
  | identifier atom n node | destructor atom n node =>
    rw [unfold_of_nameNode? node] at grounded
    exact leaves_rewriteName node ((leaves_reintern grounded).bind (leaves_internName node))
  | qualified base member n node ihBase ihMember =>
    rw [unfold_of_nameNode? node] at grounded unmatched
    have outer := ihBase grounded.1 unmatched.1
    have inner := ihMember grounded.2 unmatched.2
    exact leaves_rewriteName node (outer.bind (inner.bind (leaves_internName node)))
  | template atom args n node ih =>
    rw [unfold_of_nameNode? node] at grounded unmatched
    obtain ⟨text, known, inside⟩ := grounded
    have again : templateName atom (s.typeList args) s = (n, s) := by
      rw [templateName, bind_eq (internTypeList_of_knows known)]
      exact internName_of_nameNode? node
    exact leaves_rewriteName node ((leaves_reintern text).bind
      ((ih inside unmatched).bind (.storing again)))
  | operator kind n node => exact leaves_rewriteName node (leaves_internName node)
  | conversion target n node ih =>
    rw [unfold_of_nameNode? node] at grounded unmatched
    exact leaves_rewriteName node ((ih grounded unmatched).bind (leaves_internName node))
  | selector parts hasArguments n node ih =>
    rw [unfold_of_nameNode? node] at grounded unmatched
    obtain ⟨known, inside⟩ := grounded
    have again : selectorName (s.nameList parts) hasArguments s = (n, s) := by
      rw [selectorName, bind_eq (internNameList_of_knows known)]
      exact internName_of_nameNode? node
    exact leaves_rewriteName node ((ih inside unmatched).bind (.storing again))
  | noName =>
    simp only [rewritePart, rewriteOptionalName]
    exact .pure _
  | justName n ih =>
    rw [unfold_justName] at grounded unmatched
    simp only [rewritePart, rewriteOptionalName]
    exact (ih grounded unmatched).bind (.pure _)
  | noTypes | noNames | noArguments => exact .pure _
  | consType first rest ihFirst ihRest =>
    rw [unfold_consType] at grounded unmatched
    have one := ihFirst grounded.1 unmatched.1
    have others := ihRest grounded.2 unmatched.2
    simp only [rewritePart, List.mapM_cons]
    exact one.bind (others.bind (.pure _))
  | consName first rest ihFirst ihRest =>
    rw [unfold_consName] at grounded unmatched
    have one := ihFirst grounded.1 unmatched.1
    have others := ihRest grounded.2 unmatched.2
    simp only [rewritePart, List.mapM_cons]
    exact one.bind (others.bind (.pure _))
  | consArgument a rest ihName ihType ihRest =>
    rw [unfold_consArgument] at grounded unmatched
    obtain ⟨grounded₁, grounded₂, -, grounded₃⟩ := grounded
    obtain ⟨unmatched₁, unmatched₂, unmatched₃⟩ := unmatched
    have name := ihName grounded₁ unmatched₁
    have type := ihType grounded₂ unmatched₂
    have others := ihRest grounded₃ unmatched₃
    have first : Leaves s (rewriteArgument e a) a := by
      rw [rewriteArgument]
      exact name.bind (type.bind (.pure _))
    simp only [rewritePart, List.mapM_cons]
    exact first.bind (others.bind (.pure _))

/-- Qualification without a scope, and a map that binds a name which no store gives out. -/
def bindsOther : Environment :=
  { providers := [.qualifying, .ofBindings ⟨[(⟨.foreign 0⟩, ⟨.void, .none⟩)]⟩] }

theorem unanswered_bindsOther {name : NameId} (apart : name ≠ ⟨.foreign 0⟩) (s : Store) :
    bindsOther.Unanswered s name := by
  have found : BindingMap.get? ⟨[(⟨.foreign 0⟩, ⟨.void, .none⟩)]⟩ name = none := by
    simp [BindingMap.get?, apart.symm]
  simp only [Environment.Unanswered, Environment.ask, bindsOther]
  rw [Environment.askInTurn_cons_of_undefined rfl, Environment.askInTurn_cons_of_undefined]
  · rfl
  · simp only [Provider.ofBindings, Provider.ofAnswers, Environment.query, found]
    rfl

end Rewriting
end Respell

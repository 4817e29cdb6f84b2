import Mathlib.Data.List.Infix
import Respell.Proofs.Layout
import Respell.Report

/-! Which documents have a report. What makes a document acceptable is said here without a word on
how it is checked: every name node is well formed, wherever it stands, every declaration too, scopes
side by side have different names, the scope is one of them, and there is one subject. Main
statement: a document has a report exactly when it is acceptable, whether or not names are
qualified (`report_iff_acceptable`). -/
namespace Respell

/-! ### Separators -/

namespace Text

theorem hasSeparator_iff {cs : List Char} : hasSeparator cs = true ↔ [':', ':'] <:+: cs := by
  fun_induction hasSeparator cs with
  | case1 => simp
  | case2 rest => exact iff_of_true rfl ⟨[], rest, rfl⟩
  | case3 c rest other ih =>
    have notHere : ¬ [':', ':'] <+: c :: rest := by
      rintro ⟨after, same⟩
      obtain ⟨rfl, rfl⟩ := List.cons.inj same
      exact other after rfl rfl
    rw [ih, List.infix_cons_iff]
    exact (or_iff_right notHere).symm

theorem hasSeparator_trimLeft (cs : List Char) : hasSeparator (trimLeft cs) = hasSeparator cs := by
  induction cs with
  | nil => rfl
  | cons c rest ih =>
    rw [trimLeft, List.dropWhile_cons]
    split
    · rename_i blank
      have other : c ≠ ':' := by
        rintro rfl
        exact absurd blank (by decide)
      rw [← trimLeft, ih]
      simp [hasSeparator, other]
    · rfl

theorem hasSeparator_reverse (cs : List Char) : hasSeparator cs.reverse = hasSeparator cs := by
  have mirrored : [':', ':'] <:+: cs.reverse ↔ [':', ':'] <:+: cs :=
    @List.reverse_infix _ [':', ':'] cs
  rw [Bool.eq_iff_iff, hasSeparator_iff, hasSeparator_iff, mirrored]

theorem hasSeparator_trim (cs : List Char) : hasSeparator (trim cs) = hasSeparator cs := by
  have right : ∀ cs, hasSeparator (trimRight cs) = hasSeparator cs := fun cs => by
    rw [trimRight, hasSeparator_reverse, ← trimLeft, hasSeparator_trimLeft, hasSeparator_reverse]
  rw [trim, right, hasSeparator_trimLeft]

theorem head_splitPath_prefix {cs part : List Char} {parts : List (List Char)}
    (h : splitPath cs = part :: parts) : part <+: cs := by
  fun_induction splitPath cs generalizing part parts with
  | case1 | case2 =>
    obtain ⟨rfl, -⟩ := List.cons.inj h
    exact List.nil_prefix
  | case3 c rest _ none =>
    exact absurd none (splitPath_ne_nil rest)
  | case4 c rest _ first others split ih =>
    obtain ⟨rfl, -⟩ := List.cons.inj h
    exact (List.prefix_cons_inj c).mpr (ih split)

/-- No part of a split text has a separator in it. -/
theorem hasSeparator_of_mem_splitPath {cs part : List Char} (h : part ∈ splitPath cs) :
    hasSeparator part = false := by
  fun_induction splitPath cs generalizing part with
  | case1 =>
    obtain rfl := List.mem_singleton.mp h
    rfl
  | case2 rest ih =>
    rcases List.mem_cons.mp h with rfl | later
    · rfl
    · exact ih later
  | case3 c rest _ none => exact absurd none (splitPath_ne_nil rest)
  | case4 c rest apart first others split ih =>
    rcases List.mem_cons.mp h with rfl | later
    · have inner : hasSeparator first = false := ih (split ▸ List.mem_cons_self ..)
      obtain ⟨after, rfl⟩ := head_splitPath_prefix split
      cases first with
      | nil => simp [hasSeparator]
      | cons c' more =>
        -- two colons at the start would have been split off
        have notBoth : ¬ (c = ':' ∧ c' = ':') := by
          rintro ⟨rfl, rfl⟩
          exact apart (more ++ after) rfl rfl
        rw [hasSeparator, inner]
        rintro more' rfl same
        exact notBoth ⟨rfl, (List.cons.inj same).1⟩
    · exact ih (split ▸ List.mem_cons_of_mem _ later)

def withoutTilde : List Char → List Char
  | '~' :: rest => rest
  | cs => cs

end Text

/-! ### Well-formed names -/

/-- A text that is a component of a name: something is left of it when it is trimmed, and it has no
`::` in it. -/
def IsComponent (text : String) : Prop :=
  Text.trim text.toList ≠ [] ∧ ¬ [':', ':'] <:+: text.toList

namespace Expr

/-- What is asked of a name node itself, whatever its parts are. -/
def WellFormed : Expr .name → Prop
  | spelled text =>
    ∀ part ∈ Text.splitPath text.toList, Text.trim (Text.withoutTilde (Text.trim part)) ≠ []
  | identifier text => IsComponent text
  | template text _ => IsComponent text
  | destructor text => IsComponent text
  | _ => True

/-- The name nodes of a written part, itself included, at every depth. -/
def nameNodes : {p : Part} → Expr p → List (Expr .name)
  | _, void | _, integer _ | _, float _ => []
  | _, pointer element | _, reference element | _, array element _ => element.nameNodes
  | _, memberPointer owner element => owner.nameNodes ++ element.nameNodes
  | _, named name => name.nameNodes
  | _, function name result arguments _ _ =>
    name.nameNodes ++ result.nameNodes ++ arguments.nameNodes
  | _, qual type _ => type.nameNodes
  | _, spelled text => [spelled text]
  | _, identifier text => [identifier text]
  | _, qualified base member => qualified base member :: (base.nameNodes ++ member.nameNodes)
  | _, template text args => template text args :: args.nameNodes
  | _, destructor text => [destructor text]
  | _, operator kind => [operator kind]
  | _, conversion target => conversion target :: target.nameNodes
  | _, selector parts hasArguments => selector parts hasArguments :: parts.nameNodes
  | _, noName => []
  | _, justName name => name.nameNodes
  | _, noTypes => []
  | _, consType first rest => first.nameNodes ++ rest.nameNodes
  | _, noNames => []
  | _, consName first rest => first.nameNodes ++ rest.nameNodes
  | _, noArguments => []
  | _, consArgument name type _ rest => name.nameNodes ++ type.nameNodes ++ rest.nameNodes

def NamesWellFormed {p : Part} (e : Expr p) : Prop := ∀ node ∈ e.nameNodes, node.WellFormed

end Expr

/-! ### Checks that pass -/

section Succeeds

variable {ε ε' α β : Type} {x : Except ε α} {P : Prop}

def Succeeds (x : Except ε α) : Prop := ∃ a, x = .ok a

theorem succeeds_ok (a : α) : Succeeds (.ok a : Except ε α) ↔ True :=
  iff_of_true ⟨a, rfl⟩ trivial

theorem succeeds_error (e : ε) : ¬ Succeeds (.error e : Except ε α) := by
  rintro ⟨a, h⟩
  cases h

theorem succeeds_bind {f : α → Except ε β} (h : ∀ a, x = .ok a → (Succeeds (f a) ↔ P)) :
    Succeeds (x >>= f) ↔ Succeeds x ∧ P := by
  cases x with
  | error e => exact iff_of_false (succeeds_error e) fun both => succeeds_error e both.1
  | ok a => exact (h a rfl).trans (and_iff_right ⟨a, rfl⟩).symm

theorem succeeds_bind_ok {f : α → β} : Succeeds (x >>= fun a => .ok (f a)) ↔ Succeeds x :=
  (succeeds_bind fun _ _ => succeeds_ok _).trans (and_iff_left trivial)

theorem succeeds_map {f : α → β} : Succeeds (x.map f) ↔ Succeeds x := by
  cases x with
  | error e => exact iff_of_false (succeeds_error e) (succeeds_error e)
  | ok a => exact iff_of_true ⟨f a, rfl⟩ ⟨a, rfl⟩

theorem succeeds_mapError {f : ε → ε'} : Succeeds (x.mapError f) ↔ Succeeds x :=
  exists_congr fun _ => mapError_eq_ok

theorem succeeds_mapM {f : α → Except ε β} {l : List α} :
    Succeeds (l.mapM f) ↔ ∀ a ∈ l, Succeeds (f a) := by
  induction l with
  | nil => simp [Succeeds, pure, Except.pure]
  | cons a rest ih =>
    rw [List.mapM_cons, List.forall_mem_cons, ← ih]
    exact succeeds_bind fun _ _ => succeeds_bind_ok

end Succeeds

/-! ### Names that are accepted -/

theorem succeeds_component {text : List Char} :
    Succeeds (component text) ↔ Text.trim text ≠ [] ∧ Text.hasSeparator text = false := by
  rw [component, ← Text.hasSeparator_trim text]
  split
  · rename_i empty
    exact iff_of_false (succeeds_error _) fun both => both.1 (List.isEmpty_iff.mp empty)
  · rename_i filled
    split
    · rename_i compound
      exact iff_of_false (succeeds_error _) fun both =>
        Bool.noConfusion (compound.symm.trans both.2)
    · rename_i single
      exact iff_of_true ⟨_, rfl⟩ ⟨mt List.isEmpty_iff.mpr filled, Bool.eq_false_iff.mpr single⟩

theorem succeeds_component_iff (text : String) :
    Succeeds (component text.toList) ↔ IsComponent text := by
  rw [succeeds_component, IsComponent, ← Text.hasSeparator_iff, Bool.not_eq_true]

theorem succeeds_spelledPart {part : List Char} (single : Text.hasSeparator part = false) :
    Succeeds (spelledPart part) ↔ Text.trim (Text.withoutTilde (Text.trim part)) ≠ [] := by
  have trimmed : Text.hasSeparator (Text.trim part) = false := by
    rw [Text.hasSeparator_trim, single]
  rw [spelledPart]
  split
  · rename_i rest tilde
    have restSingle : Text.hasSeparator rest = false := by
      rw [tilde] at trimmed
      simpa [Text.hasSeparator] using trimmed
    rw [succeeds_map, succeeds_component, tilde, Text.withoutTilde]
    exact and_iff_left restSingle
  · rename_i plain
    have same : Text.withoutTilde (Text.trim part) = Text.trim part := by
      rw [Text.withoutTilde]
      exact plain
    rw [succeeds_map, succeeds_component, same]
    exact and_iff_left trimmed

theorem succeeds_qualifyAll {base : Tree .name} {parts : List (List Char)} :
    Succeeds (qualifyAll base parts) ↔ ∀ part ∈ parts, Succeeds (spelledPart part) := by
  induction parts generalizing base with
  | nil => exact iff_of_true ⟨base, rfl⟩ fun _ h => nomatch h
  | cons part rest ih =>
    rw [qualifyAll, List.forall_mem_cons]
    exact succeeds_bind fun _ _ => ih

theorem succeeds_spelledName {text : List Char} : Succeeds (spelledName text) ↔
    ∀ part ∈ Text.splitPath text, Text.trim (Text.withoutTilde (Text.trim part)) ≠ [] := by
  have parts : Succeeds (spelledName text) ↔
      ∀ part ∈ Text.splitPath text, Succeeds (spelledPart part) := by
    rw [spelledName]
    split
    · rename_i none
      exact absurd none (Text.splitPath_ne_nil text)
    · rename_i first rest split
      rw [split, List.forall_mem_cons]
      exact succeeds_bind fun _ _ => succeeds_qualifyAll
  rw [parts]
  exact forall₂_congr fun part mem => succeeds_spelledPart (Text.hasSeparator_of_mem_splitPath mem)

namespace Expr

theorem succeeds_componentMeaning {text : String} :
    Succeeds (componentMeaning text) ↔ IsComponent text :=
  succeeds_mapError.trans (succeeds_component_iff text)

/-- A written part has a meaning exactly when all its name nodes are well formed. -/
theorem succeeds_meaning {p : Part} (e : Expr p) : Succeeds e.meaning ↔ e.NamesWellFormed := by
  induction e with
  | void | integer | float | noName | noTypes | noNames | noArguments =>
    exact iff_of_true ⟨_, rfl⟩ fun _ h => nomatch h
  | operator kind =>
    exact iff_of_true ⟨_, rfl⟩ fun node h => List.mem_singleton.mp h ▸ trivial
  | pointer _ ih | reference _ ih | array _ _ ih | named _ ih | qual _ _ ih | justName _ ih =>
    exact succeeds_bind_ok.trans ih
  | conversion target ih =>
    rw [NamesWellFormed, nameNodes, List.forall_mem_cons, ← NamesWellFormed, ← ih]
    exact succeeds_bind_ok.trans (and_iff_right trivial).symm
  | selector parts _ ih =>
    rw [NamesWellFormed, nameNodes, List.forall_mem_cons, ← NamesWellFormed, ← ih]
    exact succeeds_bind_ok.trans (and_iff_right trivial).symm
  | memberPointer _ _ ihFirst ihRest | consType _ _ ihFirst ihRest | consName _ _ ihFirst ihRest =>
    rw [NamesWellFormed, nameNodes, List.forall_mem_append, ← NamesWellFormed, ← NamesWellFormed,
      ← ihFirst, ← ihRest]
    exact succeeds_bind fun _ _ => succeeds_bind_ok
  | qualified _ _ ihFirst ihRest =>
    rw [NamesWellFormed, nameNodes, List.forall_mem_cons, List.forall_mem_append,
      ← NamesWellFormed, ← NamesWellFormed, ← ihFirst, ← ihRest]
    exact (succeeds_bind fun _ _ => succeeds_bind_ok).trans (and_iff_right trivial).symm
  | function _ _ _ _ _ ihName ihResult ihArguments =>
    rw [NamesWellFormed, nameNodes, List.forall_mem_append, List.forall_mem_append,
      ← NamesWellFormed, ← NamesWellFormed, ← NamesWellFormed, ← ihName, ← ihResult,
      ← ihArguments, and_assoc]
    exact succeeds_bind fun _ _ => succeeds_bind fun _ _ => succeeds_bind_ok
  | consArgument _ _ _ _ ihName ihType ihRest =>
    rw [NamesWellFormed, nameNodes, List.forall_mem_append, List.forall_mem_append,
      ← NamesWellFormed, ← NamesWellFormed, ← NamesWellFormed, ← ihName, ← ihType, ← ihRest,
      and_assoc]
    exact succeeds_bind fun _ _ => succeeds_bind fun _ _ => succeeds_bind_ok
  | spelled text =>
    rw [NamesWellFormed, nameNodes, List.forall_mem_singleton]
    exact succeeds_mapError.trans succeeds_spelledName
  | identifier text | destructor text =>
    rw [NamesWellFormed, nameNodes, List.forall_mem_singleton]
    exact succeeds_bind_ok.trans succeeds_componentMeaning
  | template text args ih =>
    rw [NamesWellFormed, nameNodes, List.forall_mem_cons, ← NamesWellFormed, ← ih]
    exact (succeeds_bind fun _ _ => succeeds_bind_ok).trans
      (and_congr_left' succeeds_componentMeaning)

end Expr

/-! ### Declarations that are accepted -/

namespace Forest

variable {α : Type}

/-- The roots side by side at the top, each with its members. -/
def siblings : Forest α → List (α × Forest α)
  | empty => []
  | cons root members rest => (root, members) :: rest.siblings

/-- The member list at a path of trimmed names; the whole forest is at the empty path. -/
inductive At : Forest WrittenDeclaration → List String → Forest WrittenDeclaration → Prop
  | here {f : Forest WrittenDeclaration} : At f [] f
  | inside {f members g : Forest WrittenDeclaration} {d : WrittenDeclaration} {path : List String}
      (sibling : (d, members) ∈ f.siblings) (further : At members path g) :
      At f (d.trimmed :: path) g

/-- The trimmed names of the siblings that have members. -/
def scopeNames (f : Forest WrittenDeclaration) : List String :=
  (f.siblings.filter fun sibling => !sibling.2.isEmpty).map (·.1.trimmed)

end Forest

def WrittenDeclaration.WellFormed (d : WrittenDeclaration) : Prop :=
  IsComponent d.name ∧ ∀ type ∈ d.type, type.NamesWellFormed

/-- What is asked of a member list itself, with nothing said about what is below it. -/
structure Forest.Orderly (f : Forest WrittenDeclaration) : Prop where
  wellFormed : ∀ sibling ∈ f.siblings, sibling.1.WellFormed
  distinct : f.scopeNames.Nodup

def Forest.OrderlyThroughout (f : Forest WrittenDeclaration) : Prop :=
  ∀ path members, f.At path members → members.Orderly

theorem succeeds_declaration {d : WrittenDeclaration} : Succeeds d.meaning ↔ d.WellFormed := by
  have named : Succeeds ((component d.name.toList).mapError (MeaningError.declarationName d.name)) ↔
      IsComponent d.name := succeeds_mapError.trans (succeeds_component_iff d.name)
  rw [WrittenDeclaration.meaning, WrittenDeclaration.WellFormed, ← named]
  refine succeeds_bind fun name _ => ?_
  cases d.type with
  | none => exact iff_of_true ⟨_, rfl⟩ fun _ h => nomatch h
  | some type =>
    refine succeeds_bind_ok.trans ?_
    simpa using type.succeeds_meaning

namespace Forest

variable {d : WrittenDeclaration} {members rest written g : Forest WrittenDeclaration}
  {forest : Forest DeclarationTree} {name : String} {path taken : List String}

theorem at_cons : written.At (name :: path) g ↔
    ∃ sibling ∈ written.siblings, sibling.1.trimmed = name ∧ sibling.2.At path g := by
  constructor
  · rintro (_ | ⟨sibling, further⟩)
    exact ⟨_, sibling, rfl, further⟩
  · rintro ⟨⟨d, members⟩, sibling, rfl, further⟩
    exact .inside sibling further

theorem orderlyThroughout_iff : written.OrderlyThroughout ↔
    written.Orderly ∧ ∀ sibling ∈ written.siblings, sibling.2.OrderlyThroughout := by
  constructor
  · exact fun all => ⟨all [] written .here, fun sibling mem path g below =>
      all (sibling.1.trimmed :: path) g (.inside mem below)⟩
  · rintro ⟨here, below⟩ path g at_
    cases at_ with
    | here => exact here
    | inside sibling further => exact below _ sibling _ g further

theorem orderly_iff : written.Orderly ↔
    (∀ sibling ∈ written.siblings, sibling.1.WellFormed) ∧ written.scopeNames.Nodup :=
  ⟨fun h => ⟨h.wellFormed, h.distinct⟩, fun h => ⟨h.1, h.2⟩⟩

theorem scopeNames_cons : (cons d members rest).scopeNames =
    if members.isEmpty then rest.scopeNames else d.trimmed :: rest.scopeNames := by
  cases empty : members.isEmpty <;> simp [scopeNames, siblings, empty]

theorem orderlyThroughout_empty : (empty : Forest WrittenDeclaration).OrderlyThroughout :=
  orderlyThroughout_iff.mpr
    ⟨⟨fun _ h => (nomatch h), List.nodup_nil⟩, fun _ h => (nomatch h)⟩

theorem orderlyThroughout_cons : (cons d members rest).OrderlyThroughout ↔ d.WellFormed ∧
    (members.isEmpty = false → d.trimmed ∉ rest.scopeNames) ∧
    members.OrderlyThroughout ∧ rest.OrderlyThroughout := by
  have orderly : (cons d members rest).Orderly ↔
      d.WellFormed ∧ (members.isEmpty = false → d.trimmed ∉ rest.scopeNames) ∧ rest.Orderly := by
    rw [orderly_iff, orderly_iff, scopeNames_cons, siblings, List.forall_mem_cons]
    cases members.isEmpty with
    | true => simp [and_assoc]
    | false => simp [and_assoc, and_left_comm]
  have below : rest.OrderlyThroughout ↔ _ := orderlyThroughout_iff
  rw [orderlyThroughout_iff, orderly, siblings, List.forall_mem_cons, below]
  tauto

/-- Declarations have a meaning exactly when they are orderly throughout and open none of the scopes
that elder siblings opened. -/
theorem succeeds_siblingsMeaning {outer : List String} :
    Succeeds (siblingsMeaning outer taken written) ↔
      written.OrderlyThroughout ∧ ∀ name ∈ taken, name ∉ written.scopeNames := by
  induction written generalizing outer taken with
  | empty =>
    refine iff_of_true ⟨_, rfl⟩ ⟨orderlyThroughout_empty, fun name _ h => absurd h List.not_mem_nil⟩
  | cons d members rest ihMembers ihRest =>
    rw [siblingsMeaning, orderlyThroughout_cons, scopeNames_cons, ← succeeds_declaration,
      and_assoc]
    refine succeeds_bind fun root own => ?_
    have named : root.name = d.trimmed := (WrittenDeclaration.meaning_eq_ok own).1
    cases empty : members.isEmpty with
    | true =>
      obtain rfl := eq_empty_of_isEmpty empty
      refine succeeds_bind_ok.trans ?_
      simp [ihRest, orderlyThroughout_empty]
    | false =>
      simp only [Bool.false_eq_true, if_false, named]
      by_cases repeated : d.trimmed ∈ taken
      · rw [if_pos repeated]
        refine iff_of_false (succeeds_error _) fun both => ?_
        exact both.2 _ repeated (List.mem_cons_self ..)
      · rw [if_neg repeated]
        have fresh : ∀ name ∈ taken, name ≠ d.trimmed := by
          rintro name mem rfl
          exact repeated mem
        refine (succeeds_bind fun _ _ => succeeds_bind_ok).trans ?_
        rw [ihMembers, ihRest, List.forall_mem_cons]
        simp only [List.mem_cons, not_or]
        constructor
        · rintro ⟨⟨inner, -⟩, others, apart, free⟩
          exact ⟨⟨fun _ => apart, inner, others⟩, fun name mem => ⟨fresh name mem, free name mem⟩⟩
        · rintro ⟨⟨apart, inner, others⟩, free⟩
          exact ⟨⟨inner, fun _ h => absurd h List.not_mem_nil⟩, others, apart trivial,
            fun name mem => (free name mem).2⟩

theorem cons_at_cons : (cons d members rest).At (name :: path) g ↔
    (d.trimmed = name ∧ members.At path g) ∨ rest.At (name :: path) g := by
  simp only [at_cons, siblings, List.exists_mem_cons_iff]

/-- A scope is opened at a path exactly when there are members at it. -/
theorem mem_opened_iff (means : Means taken written forest) :
    path ∈ forest.opened ↔ path ≠ [] ∧ ∃ g, written.At path g ∧ g ≠ .empty := by
  induction means generalizing path with
  | empty =>
    cases path with
    | nil => simp [opened]
    | cons name path => simp [opened, at_cons, siblings]
  | @leaf taken d root rest rest' own others ih =>
    have alike : (cons root .empty rest').opened = rest'.opened := rfl
    rw [alike, ih]
    refine and_congr_right fun inside => exists_congr fun g => ?_
    cases path with
    | nil => exact absurd rfl inside
    | cons name path =>
      have nothing : ∀ g, (empty : Forest WrittenDeclaration).At path g → g = .empty := by
        rintro g (_ | ⟨sibling, -⟩)
        · rfl
        · cases sibling
      rw [cons_at_cons]
      constructor
      · rintro ⟨further, filled⟩
        exact ⟨.inr further, filled⟩
      · rintro ⟨⟨-, gone⟩ | further, filled⟩
        · exact absurd (nothing g gone) filled
        · exact ⟨further, filled⟩
  | @scope taken d root members rest members' rest' own filled _ inner _ ihInner ihOthers =>
    cases path with
    | nil => simp [opened, filled, ihOthers]
    | cons name path =>
      have named : root.name = d.trimmed := (WrittenDeclaration.meaning_eq_ok own).1
      have nonempty : members ≠ .empty := by
        rintro rfl
        rw [isEmpty_of_means inner] at filled
        cases filled
      have below : (path = [] ∨ path ∈ members'.opened) ↔
          ∃ g, members.At path g ∧ g ≠ .empty := by
        rw [ihInner]
        cases path with
        | nil => exact iff_of_true (.inl rfl) ⟨members, .here, nonempty⟩
        | cons _ _ => simp
      have here : name :: path ∈ (cons root members' rest').opened ↔
          (d.trimmed = name ∧ (path = [] ∨ path ∈ members'.opened)) ∨
            name :: path ∈ rest'.opened := by
        simp [opened, filled, named, eq_comm (a := name), and_comm, or_and_right, or_assoc]
      rw [here, below, ihOthers]
      simp [cons_at_cons, or_and_right, exists_or, and_assoc]

end Forest

/-! ### Documents that are accepted -/

/-- The rules for documents. -/
structure Document.Acceptable (d : Document) : Prop where
  oneSubject : d.type.isSome ≠ d.name.isSome
  type : ∀ type ∈ d.type, type.NamesWellFormed
  name : ∀ name ∈ d.name, name.NamesWellFormed
  bindings : ∀ b ∈ d.bindings, b.name.NamesWellFormed ∧ b.type.NamesWellFormed
  declarations : ∀ path members, d.declarations.At path members → members.Orderly
  scope : d.scope = [] ∨ ∃ members, d.declarations.At d.scope members ∧ members ≠ .empty

theorem succeeds_scopeMeaning {declarations : Forest WrittenDeclaration} {scope : List String} :
    Succeeds (scopeMeaning declarations scope) ↔ declarations.OrderlyThroughout ∧
      (scope = [] ∨ ∃ members, declarations.At scope members ∧ members ≠ .empty) := by
  have orderly : Succeeds (siblingsMeaning [] [] declarations) ↔
      declarations.OrderlyThroughout := by
    rw [Forest.succeeds_siblingsMeaning]
    exact and_iff_left fun _ h => (nomatch h)
  rw [scopeMeaning_eq, ← orderly]
  refine succeeds_bind fun forest meant => ?_
  have found : scope ∈ [] :: forest.opened ↔
      scope = [] ∨ ∃ members, declarations.At scope members ∧ members ≠ .empty := by
    rw [List.mem_cons, Forest.mem_opened_iff (means_of_siblingsMeaning meant)]
    by_cases outermost : scope = [] <;> simp [outermost]
  rw [← found]
  split
  · rename_i opens
    exact iff_of_true ⟨_, rfl⟩ opens
  · rename_i unknown
    exact iff_of_false (succeeds_error _) unknown

theorem Document.succeeds_subjectMeaning {d : Document} : Succeeds d.subjectMeaning ↔
    d.type.isSome ≠ d.name.isSome ∧ (∀ type ∈ d.type, type.NamesWellFormed) ∧
      ∀ name ∈ d.name, name.NamesWellFormed := by
  rw [subjectMeaning]
  cases d.type with
  | none =>
    cases d.name with
    | none => simp [succeeds_error]
    | some name => simp [succeeds_map, Expr.succeeds_meaning]
  | some type =>
    cases d.name with
    | none => simp [succeeds_map, Expr.succeeds_meaning]
    | some name => simp [succeeds_error]

theorem succeeds_binding {b : WrittenBinding} :
    Succeeds b.meaning ↔ b.name.NamesWellFormed ∧ b.type.NamesWellFormed := by
  rw [WrittenBinding.meaning, ← Expr.succeeds_meaning, ← Expr.succeeds_meaning]
  exact succeeds_bind fun _ _ => succeeds_bind_ok

theorem Document.succeeds_meaning {d : Document} : Succeeds d.meaning ↔ d.Acceptable := by
  have steps : Succeeds d.meaning ↔ Succeeds (d.bindings.mapM WrittenBinding.meaning) ∧
      Succeeds (scopeMeaning d.declarations d.scope) ∧ Succeeds d.subjectMeaning :=
    succeeds_bind fun _ _ => succeeds_bind fun _ _ => succeeds_bind_ok
  rw [steps, succeeds_mapM, succeeds_scopeMeaning, succeeds_subjectMeaning]
  simp only [succeeds_binding]
  constructor
  · rintro ⟨bindings, ⟨declarations, scope⟩, oneSubject, type, name⟩
    exact { oneSubject, type, name, bindings, declarations, scope }
  · rintro ⟨oneSubject, type, name, bindings, declarations, scope⟩
    exact ⟨bindings, ⟨declarations, scope⟩, oneSubject, type, name⟩

/-- A document has a report exactly when it is acceptable, whether or not names are qualified. -/
theorem Document.report_iff_acceptable (d : Document) (qualify : Bool) :
    (∃ report, d.report qualify = .ok report) ↔ d.Acceptable :=
  succeeds_map.trans succeeds_meaning

end Respell

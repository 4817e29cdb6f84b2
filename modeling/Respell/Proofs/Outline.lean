import Respell.Proofs.Layout

/-! Outlines of declarations. The outline of written declarations has them all in the order in which
they are written, each ahead of its members and with the names of the declarations around it. Main
statement: the table that declarations are laid out in has its symbols in the order of the outline,
and its scopes in the order of the declarations with members (`layout_outlined`). -/
namespace Respell

/-- A declaration as it stands in an outline. -/
structure Outlined where
  /-- The trimmed names of the declarations around it, outermost first. -/
  outer : List String
  declaration : WrittenDeclaration
  /-- Whether it has members. -/
  opens : Bool

/-- The trimmed names of the declarations around it and its own. -/
def Outlined.path (o : Outlined) : List String := o.outer ++ [o.declaration.trimmed]

/-- The declarations that are written below a path, each ahead of its members, and those ahead of
its next sibling. -/
def Forest.outline (outer : List String) : Forest WrittenDeclaration → List Outlined
  | .empty => []
  | .cons d members rest =>
    ⟨outer, d, !members.isEmpty⟩ ::
      (outline (outer ++ [d.trimmed]) members ++ outline outer rest)

/-- What the type of a declaration means; one without a type stands for the type of its own name. -/
def WrittenDeclaration.typeMeaning (d : WrittenDeclaration) :
    Except MeaningError (Tree .qualified) :=
  d.type.elim (.ok (.qual (.named (.identifier d.trimmed)) .none)) Expr.meaning

theorem WrittenDeclaration.typeMeaning_eq_ok {d : WrittenDeclaration} {root : DeclarationTree}
    (h : d.meaning = .ok root) : d.typeMeaning = .ok root.type := by
  obtain ⟨name, trimmed, h⟩ := bind_eq_ok.mp h
  obtain rfl : name = d.trimmed := component_eq_ok (mapError_eq_ok.mp trimmed)
  rw [typeMeaning]
  cases written : d.type with
  | none =>
    rw [written] at h
    cases h
    rfl
  | some type =>
    rw [written] at h
    obtain ⟨tree, meaning, h⟩ := bind_eq_ok.mp h
    cases h
    exact meaning

namespace Means

variable {taken : List String} {written : Forest WrittenDeclaration}
  {forest : Forest DeclarationTree}

/-- What declarations mean is placed in the order of their outline. -/
theorem placed_outline (h : Means taken written forest) (outer : List String) :
    List.Forall₂ (fun (o : Outlined) p => p.1 = o.outer ∧ o.declaration.meaning = .ok p.2)
      (written.outline outer) (forest.placed.map fun p => (outer ++ p.1, p.2)) := by
  induction h generalizing outer with
  | empty => exact .nil
  | leaf own _ ih =>
    rw [Layout.map_placed_cons]
    exact .cons ⟨rfl, own⟩ (ih outer)
  | scope own _ _ _ _ ihInner ih =>
    rw [Layout.map_placed_cons, (WrittenDeclaration.meaning_eq_ok own).1]
    exact .cons ⟨rfl, own⟩ (List.rel_append (ihInner _) (ih outer))

/-- Scopes are opened in the order of the outline, by the declarations with members. -/
theorem opened_outline (h : Means taken written forest) (outer : List String) :
    forest.opened.map (outer ++ ·) =
      ((written.outline outer).filter (·.opens)).map (·.path) := by
  induction h generalizing outer with
  | empty => rfl
  | leaf _ _ ih => exact ih outer
  | scope own filled _ inner _ ihInner ih =>
    have open_ := (isEmpty_of_means inner).symm.trans filled
    rw [Layout.map_opened_cons _ _ _ (Bool.eq_false_iff.mp filled), ihInner, ih,
      (WrittenDeclaration.meaning_eq_ok own).1, Forest.outline,
      List.filter_cons_of_pos (by simp [open_]), List.filter_append, List.map_cons, List.map_append]
    rfl

end Means

theorem getElem?_of_forall₂ {α β : Type} {r : α → β → Prop} {as : List α} {bs : List β}
    (related : List.Forall₂ r as bs) {i : Nat} {a : α} (at_ : as[i]? = some a) :
    ∃ b, bs[i]? = some b ∧ r a b := by
  obtain ⟨inside, rfl⟩ := List.getElem?_eq_some_iff.mp at_
  obtain ⟨same, each⟩ := List.forall₂_iff_get.mp related
  exact ⟨_, List.getElem?_eq_getElem (same ▸ inside), each i inside (same ▸ inside)⟩

/-- The scope of a declaration with members comes after those of all that stand before it, and after
the outermost scope. -/
theorem Layout.Records.scopeAt?_outline {taken : List String} {written : Forest WrittenDeclaration}
    {forest : Forest DeclarationTree} {layout : Layout} {t : Store} {scope : List String}
    (h : layout.Records t ([] :: forest.opened) forest.placed) (means : Means taken written forest)
    (opened : scope ∈ forest.opened) :
    ∃ resolved, layout.scopeAt? scope = some resolved ∧
      (∃ o ∈ written.outline [], o.opens = true ∧ o.path = scope) ∧
      ∀ before o after, written.outline [] = before ++ o :: after → o.opens = true →
        o.path = scope → resolved.index = 1 + before.countP (·.opens) := by
  have paths : forest.opened = ((written.outline []).filter (·.opens)).map (·.path) := by
    simpa using means.opened_outline []
  obtain ⟨resolved, found, known⟩ := h.scopeAt? (List.mem_cons_of_mem [] opened)
  refine ⟨resolved, found, ?_, ?_⟩
  · rw [paths] at opened
    obtain ⟨o, mem, same⟩ := List.mem_map.mp opened
    exact ⟨o, (List.mem_filter.mp mem).1, (List.mem_filter.mp mem).2, same⟩
  · rintro before o after outline opens rfl
    have place : ([] :: forest.opened)[1 + before.countP (·.opens)]? = some o.path := by
      rw [paths, outline, List.filter_append, List.filter_cons_of_pos opens, Nat.add_comm,
        List.getElem?_cons_succ, List.countP_eq_length_filter, List.map_append, List.map_cons]
      simp
    have inside := (List.getElem?_eq_some_iff.mp known).1
    exact (List.getElem?_inj inside means.nodup_opened).mp (known.trans place.symm)

/-- Declarations are laid out in the order of their outline: there is a symbol for each, with its
name and its type, and its full name is its path. The scope of the document is the outermost one, or
that of the declaration with members at its path. -/
theorem layout_outlined {written : Forest WrittenDeclaration} {scope : List String}
    {forest : Forest DeclarationTree} (accepted : scopeMeaning written scope = .ok forest)
    (s : Store) : ∃ layout t, Layout.ofForest forest s = (layout, t) ∧
      layout.table.symbolCount = (written.outline []).length ∧
      (∀ k o, (written.outline [])[k]? = some o → ∃ declared type,
        layout.table.symbol? ⟨k⟩ = some declared ∧
        Store.identifierName o.declaration.trimmed t = (declared.name, t) ∧
        o.declaration.typeMeaning = .ok type ∧ type.intern t = (declared.type, t) ∧
        List.Forall₂ (fun text name => Store.identifierName text t = (name, t)) o.path
          (layout.table.qualifiedName ⟨k⟩)) ∧
      ∃ resolved, layout.scopeAt? scope = some resolved ∧
        (scope = [] → resolved = DeclarationTable.globalScope) ∧
        (scope ≠ [] → (∃ o ∈ written.outline [], o.opens = true ∧ o.path = scope) ∧
          ∀ before o after, written.outline [] = before ++ o :: after → o.opens = true →
            o.path = scope → resolved.index = 1 + before.countP (·.opens)) := by
  obtain ⟨means, known⟩ := means_of_scopeMeaning accepted
  have placed : List.Forall₂ (fun (o : Outlined) p => p.1 = o.outer ∧
      o.declaration.meaning = .ok p.2) (written.outline []) forest.placed := by
    simpa using means.placed_outline []
  have records := (Layout.yields_ofForest (s := s) means s (.refl s)).2
  refine ⟨_, _, rfl, ?_, fun k o at_ => ?_, ?_⟩
  · exact records.table.symbols_size.trans placed.length_eq.symm
  · obtain ⟨⟨outer, d⟩, there, rfl, own⟩ := getElem?_of_forall₂ placed at_
    obtain ⟨declared, recorded, stands⟩ := records.table.symbol k _ d there
    have named := (WrittenDeclaration.meaning_eq_ok own).1
    have chain := records.table.qualifiedName
      (show forest.placed[(SymbolId.mk k).index]? = _ from there)
    rw [named] at chain
    refine ⟨declared, d.type, recorded, ?_, WrittenDeclaration.typeMeaning_eq_ok own,
      stands.type.found, chain.imp fun _ _ denotes => denotes.found⟩
    exact named ▸ stands.name.found
  · rcases List.mem_cons.mp known with rfl | opened
    · exact ⟨_, rfl, fun _ => rfl, fun inside => absurd rfl inside⟩
    · have inside : scope ≠ [] := by
        rintro rfl
        exact (List.nodup_cons.mp means.nodup_opened).1 opened
      obtain ⟨resolved, at_, place⟩ := records.scopeAt?_outline means opened
      exact ⟨resolved, at_, fun same => absurd same inside, fun _ => place⟩

/-- A declaration `a` with the members `b` and `d`, where `b` has the member `c`, and after it a
declaration `e` with the member `f`. -/
def nestedSiblings : Forest WrittenDeclaration :=
  .ofList [(⟨"a", none⟩, .ofList [(⟨"b", none⟩, .ofList [(⟨"c", none⟩, .empty)]),
      (⟨"d", some (.qual .void [])⟩, .empty)]),
    (⟨" e ", none⟩, .ofList [(⟨"f", none⟩, .empty)])]

/-- The scope of `e` comes after those of `a` and `b`, and `c` is the third symbol. -/
theorem layout_outlined_nestedSiblings :
    ∃ forest, scopeMeaning nestedSiblings ["e"] = .ok forest ∧
      ∃ layout t, Layout.ofForest forest .initial = (layout, t) ∧ layout.table.symbolCount = 6 ∧
        List.Forall₂ (fun text name => Store.identifierName text t = (name, t)) ["a", "b", "c"]
          (layout.table.qualifiedName ⟨2⟩) ∧
        ∃ resolved, layout.scopeAt? ["e"] = some resolved ∧ resolved.index = 3 := by
  obtain ⟨forest, accepted⟩ : ∃ forest, scopeMeaning nestedSiblings ["e"] = .ok forest := ⟨_, rfl⟩
  obtain ⟨layout, t, laid, count, symbols, resolved, found, -, place⟩ :=
    layout_outlined accepted .initial
  obtain ⟨_, _, -, -, -, -, chain⟩ := symbols 2 ⟨["a", "b"], ⟨"c", none⟩, false⟩ rfl
  obtain ⟨-, number⟩ := place (List.cons_ne_nil _ _)
  have index : resolved.index = 3 :=
    number [⟨[], ⟨"a", none⟩, true⟩, ⟨["a"], ⟨"b", none⟩, true⟩, ⟨["a", "b"], ⟨"c", none⟩, false⟩,
      ⟨["a"], ⟨"d", some (.qual .void [])⟩, false⟩] ⟨[], ⟨" e ", none⟩, true⟩
      [⟨["e"], ⟨"f", none⟩, false⟩] rfl rfl rfl
  exact ⟨forest, accepted, layout, t, laid, count, chain, resolved, found, index⟩

end Respell

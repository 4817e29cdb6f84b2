import Mathlib.Data.List.Nodup
import Respell.Document.Layout
import Respell.Proofs.Scopes
import Respell.Proofs.Spelling

/-! Layouts of declarations. A forest places its declarations at paths and opens scopes at paths,
both in the order in which they are written. Main statements: laying a forest out records exactly
these (`yields_ofForest`), checking paths against all open scopes comes to checking names against
those of elder siblings (`declarationsMeaning_eq`), no scope is opened twice (`Means.nodup_opened`),
and the paths at which a name is declared can be read off the written declarations
(`Means.declares`). -/
namespace Respell

namespace Forest

/-- Whether the trees at a path have a root of the name; the empty path is that of the outermost. -/
def declares {α : Type} (nameOf : α → String) (name : String) : List String → Forest α → Bool
  | _, .empty => false
  | [], .cons root _ rest => nameOf root == name || declares nameOf name [] rest
  | first :: path, .cons root members rest =>
    (nameOf root == first && declares nameOf name path members) ||
      declares nameOf name (first :: path) rest

/-- The declarations with the paths that they are at, each ahead of its members. -/
def placed : Forest DeclarationTree → List Placed
  | .empty => []
  | .cons root members rest =>
    ([], root) :: (members.placed.map fun p => (root.name :: p.1, p.2)) ++ rest.placed

/-- The paths of the scopes that are opened, each ahead of those inside it. -/
def opened : Forest DeclarationTree → List (List String)
  | .empty => []
  | .cons root members rest =>
    (if members.isEmpty then [] else [root.name] :: members.opened.map (root.name :: ·)) ++
      rest.opened

theorem eq_empty_of_isEmpty {α : Type} {forest : Forest α} (h : forest.isEmpty = true) :
    forest = .empty := by
  cases forest with
  | empty => rfl
  | cons => cases h

theorem mem_placed_cons {root : DeclarationTree} {members rest : Forest DeclarationTree}
    {path : List String} {d : DeclarationTree} :
    (path, d) ∈ (cons root members rest).placed ↔
      (path = [] ∧ d = root) ∨ (∃ inner, path = root.name :: inner ∧ (inner, d) ∈ members.placed) ∨
        (path, d) ∈ rest.placed := by
  simp only [placed, List.cons_append, List.mem_cons, List.mem_append, List.mem_map, Prod.mk.injEq]
  refine or_congr_right (or_congr_left ?_)
  constructor
  · rintro ⟨⟨inner, d⟩, inside, rfl, rfl⟩
    exact ⟨inner, rfl, inside⟩
  · rintro ⟨inner, rfl, inside⟩
    exact ⟨(inner, d), inside, rfl, rfl⟩

theorem mem_placed_iff {forest : Forest DeclarationTree} {name : String} {path : List String} :
    (∃ d, (path, d) ∈ forest.placed ∧ d.name = name) ↔
      forest.declares (·.name) name path = true := by
  induction forest generalizing path with
  | empty => simp [placed, declares]
  | cons root members rest ihMembers ihRest =>
    simp only [mem_placed_cons, or_and_right, exists_or, ihRest]
    cases path with
    | nil => simp [declares]
    | cons first path =>
      have here : (∃ d, (∃ inner, first :: path = root.name :: inner ∧ (inner, d) ∈ members.placed) ∧
          d.name = name) ↔ root.name = first ∧ ∃ d, (path, d) ∈ members.placed ∧ d.name = name := by
        simp [eq_comm (a := first), and_assoc]
      rw [here, ihMembers]
      simp [declares]

end Forest

/-! ### What written declarations mean -/

def WrittenDeclaration.trimmed (d : WrittenDeclaration) : String :=
  String.ofList (Text.trim d.name.toList)

theorem WrittenDeclaration.meaning_eq_ok {d : WrittenDeclaration} {root : DeclarationTree}
    (h : d.meaning = .ok root) : root.name = d.trimmed ∧ root.type.Plain := by
  obtain ⟨name, trimmed, h⟩ := bind_eq_ok.mp h
  have same : name = d.trimmed := component_eq_ok (mapError_eq_ok.mp trimmed)
  split at h
  · cases h
    exact ⟨same, trivial⟩
  · obtain ⟨type, written, h⟩ := bind_eq_ok.mp h
    cases h
    exact ⟨same, Expr.plain_of_meaning written⟩

/-- Written declarations mean a forest when each means its root and no two siblings open scopes of
one name; `taken` are the names of the scopes that elder siblings opened. -/
inductive Means : List String → Forest WrittenDeclaration → Forest DeclarationTree → Prop
  | empty {taken : List String} : Means taken .empty .empty
  | leaf {taken : List String} {d : WrittenDeclaration} {root : DeclarationTree}
      {rest : Forest WrittenDeclaration} {rest' : Forest DeclarationTree}
      (own : d.meaning = .ok root) (others : Means taken rest rest') :
      Means taken (.cons d .empty rest) (.cons root .empty rest')
  | scope {taken : List String} {d : WrittenDeclaration} {root : DeclarationTree}
      {members rest : Forest WrittenDeclaration} {members' rest' : Forest DeclarationTree}
      (own : d.meaning = .ok root) (filled : members'.isEmpty = false) (fresh : root.name ∉ taken)
      (inner : Means [] members members') (others : Means (root.name :: taken) rest rest') :
      Means taken (.cons d members rest) (.cons root members' rest')

theorem isEmpty_of_means {taken : List String} {written : Forest WrittenDeclaration}
    {forest : Forest DeclarationTree} (h : Means taken written forest) :
    forest.isEmpty = written.isEmpty := by
  cases h <;> rfl

/-- What written declarations mean when of the open scopes only the names of those that elder
siblings opened are kept: `taken`. -/
def siblingsMeaning (outer taken : List String) :
    Forest WrittenDeclaration → Except MeaningError (Forest DeclarationTree)
  | .empty => .ok .empty
  | .cons d members rest => do
    let root ← d.meaning
    if members.isEmpty then
      let rest ← siblingsMeaning outer taken rest
      pure (.cons root .empty rest)
    else if root.name ∈ taken then .error (.repeatedScope (outer ++ [root.name]))
    else
      let members ← siblingsMeaning (outer ++ [root.name]) [] members
      let rest ← siblingsMeaning outer (root.name :: taken) rest
      pure (.cons root members rest)

theorem means_of_siblingsMeaning {outer taken : List String}
    {written : Forest WrittenDeclaration} {forest : Forest DeclarationTree}
    (h : siblingsMeaning outer taken written = .ok forest) : Means taken written forest := by
  induction written generalizing outer taken forest with
  | empty =>
    cases h
    exact .empty
  | cons d members rest ihMembers ihRest =>
    obtain ⟨root, own, h⟩ := bind_eq_ok.mp h
    split at h
    · rename_i empty
      obtain ⟨rest', others, h⟩ := bind_eq_ok.mp h
      cases h
      rw [Forest.eq_empty_of_isEmpty empty]
      exact .leaf own (ihRest others)
    · rename_i filled
      split at h
      · cases h
      · rename_i fresh
        obtain ⟨members', inner, h⟩ := bind_eq_ok.mp h
        obtain ⟨rest', others, h⟩ := bind_eq_ok.mp h
        cases h
        have same := isEmpty_of_means (ihMembers inner)
        exact .scope own (same.trans (Bool.eq_false_iff.mpr filled)) fresh (ihMembers inner)
          (ihRest others)

/-- Of the scopes that are open, the ones inside the path `outer` are those at its names in `taken`
and others inside these. -/
structure OpenInside (scopes : List (List String)) (outer taken : List String) : Prop where
  mem : ∀ name ∈ taken, outer ++ [name] ∈ scopes
  through : ∀ name inner, outer ++ name :: inner ∈ scopes → name ∈ taken

namespace OpenInside

variable {scopes : List (List String)} {outer taken : List String} {name : String}

theorem nothing : OpenInside [] [] [] :=
  ⟨fun _ none => absurd none List.not_mem_nil, fun _ _ none => absurd none List.not_mem_nil⟩

theorem mem_iff (h : OpenInside scopes outer taken) : outer ++ [name] ∈ scopes ↔ name ∈ taken :=
  ⟨h.through name [], h.mem name⟩

/-- Nothing is open inside a scope that was just opened. -/
theorem members (h : OpenInside scopes outer taken) (fresh : name ∉ taken) :
    OpenInside (scopes ++ [outer ++ [name]]) (outer ++ [name]) [] := by
  refine ⟨fun _ none => absurd none List.not_mem_nil, fun next inner opens => ?_⟩
  rw [List.append_assoc] at opens
  rcases List.mem_append.mp opens with old | new
  · exact absurd (h.through name _ old) fresh
  · simp at new

theorem rest (h : OpenInside scopes outer taken) (below : List (List String)) :
    OpenInside (scopes ++ [outer ++ [name]] ++ below.map (outer ++ [name] ++ ·)) outer
      (name :: taken) := by
  constructor
  · rintro next (_ | ⟨_, old⟩)
    · simp
    · simp [h.mem next old]
  · intro next inner opens
    rcases List.mem_append.mp opens with opens | inside
    · rcases List.mem_append.mp opens with old | new
      · exact List.mem_cons_of_mem _ (h.through next inner old)
      · obtain ⟨rfl, -⟩ : next = name ∧ inner = [] := by simpa using new
        exact List.mem_cons_self
    · obtain ⟨path, -, same⟩ := List.mem_map.mp inside
      obtain ⟨rfl, -⟩ : name = next ∧ path = inner := by simpa using same
      exact List.mem_cons_self

end OpenInside

/-- Two declarations whose scopes are at one path are siblings, so that checking the open paths
comes to checking the names of elder siblings. -/
theorem declarationsMeaning_eq {scopes : List (List String)} {outer taken : List String}
    (h : OpenInside scopes outer taken) (written : Forest WrittenDeclaration) :
    declarationsMeaning outer written scopes = (siblingsMeaning outer taken written).map
      fun forest => (forest, scopes ++ forest.opened.map (outer ++ ·)) := by
  induction written generalizing scopes outer taken with
  | empty => simp [declarationsMeaning, siblingsMeaning, Forest.opened, Except.map]
  | cons d members rest ihMembers ihRest =>
    rw [declarationsMeaning, siblingsMeaning]
    cases d.meaning with
    | error => rfl
    | ok root =>
      simp only [Except.bind, bind]
      cases empty : members.isEmpty with
      | true =>
        simp only [if_true, ihRest h]
        cases siblingsMeaning outer taken rest with
        | error => rfl
        | ok rest' => rfl
      | false =>
        simp only [Bool.false_eq_true, if_false, h.mem_iff]
        by_cases repeated : root.name ∈ taken
        · rw [if_pos repeated, if_pos repeated]
          rfl
        · rw [if_neg repeated, if_neg repeated, ihMembers (h.members repeated)]
          cases inner : siblingsMeaning (outer ++ [root.name]) [] members with
          | error => rfl
          | ok members' =>
            have filled := (isEmpty_of_means (means_of_siblingsMeaning inner)).trans empty
            simp only [Except.map, ihRest (h.rest _)]
            cases siblingsMeaning outer (root.name :: taken) rest with
            | error => rfl
            | ok rest' => simp [Forest.opened, filled, Function.comp_def, pure, Except.pure]

theorem scopeMeaning_eq (written : Forest WrittenDeclaration) (scope : List String) :
    scopeMeaning written scope = siblingsMeaning [] [] written >>= fun forest =>
      if scope ∈ [] :: forest.opened then pure forest else .error (.unknownScope scope) := by
  rw [scopeMeaning, declarationsMeaning_eq .nothing]
  cases siblingsMeaning [] [] written with
  | error => rfl
  | ok forest =>
    have found : (scope.isEmpty || decide (scope ∈ [] ++ forest.opened.map ([] ++ ·))) = true ↔
        scope ∈ [] :: forest.opened := by simp
    exact if_congr found rfl rfl

theorem means_of_scopeMeaning {written : Forest WrittenDeclaration} {scope : List String}
    {forest : Forest DeclarationTree} (h : scopeMeaning written scope = .ok forest) :
    Means [] written forest ∧ scope ∈ [] :: forest.opened := by
  rw [scopeMeaning_eq] at h
  obtain ⟨forest', declared, h⟩ := bind_eq_ok.mp h
  split at h
  · rename_i opens
    cases h
    exact ⟨means_of_siblingsMeaning declared, opens⟩
  · cases h

namespace Means

variable {taken : List String} {written : Forest WrittenDeclaration}
  {forest : Forest DeclarationTree}

theorem plain (h : Means taken written forest) : ∀ p ∈ forest.placed, p.2.type.Plain := by
  induction h with
  | empty => simp [Forest.placed]
  | leaf own _ ih =>
    rintro ⟨path, d⟩ hd
    rcases Forest.mem_placed_cons.mp hd with ⟨-, rfl⟩ | ⟨inner, -, inside⟩ | after
    · exact (WrittenDeclaration.meaning_eq_ok own).2
    · cases inside
    · exact ih _ after
  | scope own _ _ _ _ ihInner ih =>
    rintro ⟨path, d⟩ hd
    rcases Forest.mem_placed_cons.mp hd with ⟨-, rfl⟩ | ⟨inner, -, inside⟩ | after
    · exact (WrittenDeclaration.meaning_eq_ok own).2
    · exact ihInner (inner, d) inside
    · exact ih _ after

theorem declares (h : Means taken written forest) (name : String) (path : List String) :
    forest.declares (·.name) name path = written.declares (·.trimmed) name path := by
  induction h generalizing path with
  | empty => rfl
  | leaf own _ ih =>
    have same := (WrittenDeclaration.meaning_eq_ok own).1
    cases path <;> simp [Forest.declares, same, ih]
  | scope own _ _ _ _ ihInner ih =>
    have same := (WrittenDeclaration.meaning_eq_ok own).1
    cases path <;> simp [Forest.declares, same, ihInner, ih]

theorem mem_opened (h : Means taken written forest) {path : List String}
    (opens : path ∈ forest.opened) : ∃ first rest, path = first :: rest ∧ first ∉ taken := by
  induction h with
  | empty => cases opens
  | leaf _ _ ih => exact ih (by simpa [Forest.opened, Forest.isEmpty] using opens)
  | @scope taken d root members rest members' rest' _ filled fresh _ _ _ ih =>
    simp only [Forest.opened, filled, List.mem_append] at opens
    rcases opens with here | after
    · rcases List.mem_cons.mp here with rfl | inside
      · exact ⟨root.name, [], rfl, fresh⟩
      · obtain ⟨inner, -, rfl⟩ := List.mem_map.mp inside
        exact ⟨root.name, inner, rfl, fresh⟩
    · obtain ⟨first, more, same, others⟩ := ih after
      exact ⟨first, more, same, fun old => others (List.mem_cons_of_mem _ old)⟩

theorem nodup_opened (h : Means taken written forest) : ([] :: forest.opened).Nodup := by
  rw [List.nodup_cons]
  constructor
  · intro opens
    obtain ⟨_, _, same, -⟩ := h.mem_opened opens
    cases same
  induction h with
  | empty => exact .nil
  | leaf _ _ ih => simpa [Forest.opened, Forest.isEmpty] using ih
  | @scope taken d root members rest members' rest' _ filled fresh inner others ihInner ih =>
    simp only [Forest.opened, filled]
    rw [List.nodup_append]
    refine ⟨List.nodup_cons.mpr ⟨?_, ?_⟩, ih, ?_⟩
    · intro inside
      obtain ⟨path, opens, same⟩ := List.mem_map.mp inside
      obtain ⟨_, _, rfl, -⟩ := inner.mem_opened opens
      cases same
    · exact List.Nodup.map List.cons_injective ihInner
    · rintro path here path' after rfl
      obtain ⟨first, more, rfl, others⟩ := others.mem_opened after
      have same : first = root.name := by
        rcases List.mem_cons.mp here with same | inside
        · exact (List.cons.inj same).1
        · obtain ⟨_, -, same⟩ := List.mem_map.mp inside
          exact (List.cons.inj same).1.symm
      exact others (same ▸ List.mem_cons_self)

end Means

/-! ### Laying out -/

/-- The table of the layout records the paths and the placed declarations, and its scopes are those
of the paths, number by number. -/
structure Layout.Records (layout : Layout) (s : Store) (paths : List (List String))
    (placed : List Placed) : Prop where
  table : layout.table.Records s paths placed
  scopes : ([], DeclarationTable.globalScope) :: layout.scopes =
    paths.zipIdx.map fun p => (p.1, ⟨p.2⟩)

namespace Layout

open DeclarationTable (globalScope)

variable {s t : Store} {layout : Layout} {paths : List (List String)} {placed : List Placed}

theorem records_new : new.Records s [[]] [] := ⟨DeclarationTable.records_new, rfl⟩

theorem Records.known (h : layout.Records s paths placed) {path : List String} {scope : ScopeId}
    (mem : (path, scope) ∈ ([], globalScope) :: layout.scopes) : paths[scope.index]? = some path := by
  rw [h.scopes] at mem
  obtain ⟨⟨q, i⟩, there, same⟩ := List.mem_map.mp mem
  cases same
  exact List.mk_mem_zipIdx_iff_getElem?.mp there

theorem Records.scopeAt? (h : layout.Records s paths placed) {path : List String}
    (mem : path ∈ paths) :
    ∃ scope, layout.scopeAt? path = some scope ∧ paths[scope.index]? = some path := by
  rw [Layout.scopeAt?]
  split
  · rename_i empty
    rw [List.isEmpty_iff.mp empty]
    exact ⟨globalScope, rfl, h.known (by simp)⟩
  · rename_i filled
    obtain ⟨i, at_⟩ := List.getElem?_of_mem mem
    have listed : (path, ScopeId.mk i) ∈ ([], globalScope) :: layout.scopes := by
      rw [h.scopes]
      exact List.mem_map.mpr ⟨(path, i), List.mk_mem_zipIdx_iff_getElem?.mpr at_, rfl⟩
    rcases List.mem_cons.mp listed with same | inside
    · obtain ⟨rfl, -⟩ := Prod.mk.inj same
      exact absurd rfl filled
    · cases found : layout.scopes.find? fun scope => scope.1 == path with
      | none => simpa using List.find?_eq_none.mp found _ inside
      | some scope =>
        obtain rfl : scope.1 = path := by simpa using List.find?_some found
        exact ⟨scope.2, rfl, h.known (List.mem_cons_of_mem _ (List.mem_of_find?_eq_some found))⟩

theorem getElem?_append_of_some {α : Type} {l : List α} {i : Nat} {a : α} (h : l[i]? = some a)
    (more : List α) : (l ++ more)[i]? = some a := by
  rw [List.getElem?_append_left (List.getElem?_eq_some_iff.mp h).1, h]

theorem Records.openScope (h : layout.Records s paths placed) {table : DeclarationTable}
    {scope : ScopeId} {path : List String} {root : DeclarationTree}
    (recorded : table.Records s paths (placed ++ [(path, root)]))
    (known : paths[scope.index]? = some path) (fresh : path ++ [root.name] ∉ paths) :
    ∃ table', table.newScope scope (some ⟨placed.length⟩) = (⟨paths.length⟩, table') ∧
      Records ⟨table', layout.scopes ++ [(path ++ [root.name], ⟨paths.length⟩)]⟩ s
        (paths ++ [path ++ [root.name]]) (placed ++ [(path, root)]) := by
  have owns : (placed ++ [(path, root)])[(SymbolId.mk placed.length).index]? = some (path, root) := by
    simp
  obtain ⟨table', opens, recorded'⟩ := recorded.newScope known owns fresh
  refine ⟨table', opens, recorded', ?_⟩
  rw [← List.cons_append, h.scopes]
  simp [List.zipIdx_append]

theorem map_placed_cons (path : List String) (root : DeclarationTree)
    (members rest : Forest DeclarationTree) :
    (Forest.cons root members rest).placed.map (fun p => (path ++ p.1, p.2)) =
      (path, root) :: (members.placed.map (fun p => ((path ++ [root.name]) ++ p.1, p.2)) ++
        rest.placed.map (fun p => (path ++ p.1, p.2))) := by
  simp [Forest.placed, Function.comp_def]

theorem map_opened_cons (path : List String) (root : DeclarationTree)
    {members : Forest DeclarationTree} (rest : Forest DeclarationTree)
    (filled : ¬members.isEmpty = true) :
    (Forest.cons root members rest).opened.map (path ++ ·) =
      (path ++ [root.name]) :: (members.opened.map ((path ++ [root.name]) ++ ·) ++
        rest.opened.map (path ++ ·)) := by
  simp [Forest.opened, filled, Function.comp_def]

theorem plain_cons {root : DeclarationTree} {members rest : Forest DeclarationTree}
    (plain : ∀ p ∈ (Forest.cons root members rest).placed, p.2.type.Plain) :
    root.type.Plain ∧ (∀ p ∈ members.placed, p.2.type.Plain) ∧
      ∀ p ∈ rest.placed, p.2.type.Plain := by
  constructor
  · exact plain ([], root) (Forest.mem_placed_cons.mpr (.inl ⟨rfl, rfl⟩))
  constructor
  · intro p hp
    exact plain (root.name :: p.1, p.2) (Forest.mem_placed_cons.mpr (.inr (.inl ⟨p.1, rfl, hp⟩)))
  · intro p hp
    exact plain p (Forest.mem_placed_cons.mpr (.inr (.inr hp)))

/-- Laying out a forest at a path records its declarations and its scopes below that path. -/
theorem yields_declareAll {forest : Forest DeclarationTree} {scope : ScopeId} {path : List String}
    (plain : ∀ p ∈ forest.placed, p.2.type.Plain) (h : layout.Records s paths placed)
    (known : paths[scope.index]? = some path)
    (fresh : (paths ++ forest.opened.map (path ++ ·)).Nodup) :
    Yields id s (declareAll scope path forest layout) fun t layout' =>
      layout'.Records t (paths ++ forest.opened.map (path ++ ·))
        (placed ++ forest.placed.map fun p => (path ++ p.1, p.2)) := by
  induction forest generalizing s scope path layout paths placed with
  | empty =>
    refine .pure fun t grows => ?_
    simpa [Forest.opened, Forest.placed] using ⟨h.table.extend grows, h.scopes⟩
  | cons root members rest ihMembers ihRest =>
    obtain ⟨plainRoot, plainMembers, plainRest⟩ := plain_cons plain
    rw [declareAll]
    apply (@Store.yields_intern True _ (.identifier root.name) trivial s).bind
    intro t name grows dn
    apply (@Store.yields_intern True _ root.type plainRoot t).bind
    intro u type grows' dt
    have before := h.table.extend (grows.trans grows')
    obtain ⟨table, declares, recorded⟩ := before.declare known (dn.extend grows') dt
    rw [declares]
    dsimp only
    split
    · rename_i empty
      obtain rfl := Forest.eq_empty_of_isEmpty empty
      have opened : (Forest.cons root .empty rest).opened = rest.opened := rfl
      rw [opened] at fresh ⊢
      have now : Layout.Records ⟨table, layout.scopes⟩ u paths (placed ++ [(path, root)]) :=
        ⟨recorded, h.scopes⟩
      have all := ihRest plainRest now known fresh
      simpa [Forest.placed] using all
    · rename_i filled
      rw [map_opened_cons path root rest filled] at fresh ⊢
      rw [map_placed_cons]
      -- The lists grow at their end, in the order in which the scopes are opened.
      have distinct : (((paths ++ [path ++ [root.name]]) ++
          members.opened.map ((path ++ [root.name]) ++ ·)) ++ rest.opened.map (path ++ ·)).Nodup := by
        simpa only [List.append_assoc, List.cons_append, List.nil_append] using fresh
      have inside := (List.nodup_append.mp distinct).1
      have new : path ++ [root.name] ∉ paths := by
        intro old
        have apart := (List.nodup_append.mp (List.nodup_append.mp inside).1).2.2
        exact apart _ old _ (List.mem_singleton_self _) rfl
      have now : Layout.Records layout u paths placed := ⟨before, h.scopes⟩
      obtain ⟨table', opens, recorded'⟩ := now.openScope recorded known new
      rw [opens]
      dsimp only
      apply (ihMembers plainMembers recorded' (by simp) inside).bind
      intro v layout' _ recorded''
      have all := ihRest plainRest recorded''
        (getElem?_append_of_some (getElem?_append_of_some known _) _) distinct
      simpa only [List.append_assoc, List.cons_append, List.nil_append] using all

theorem yields_ofForest {taken : List String} {written : Forest WrittenDeclaration}
    {forest : Forest DeclarationTree} (means : Means taken written forest) :
    Yields id s (ofForest forest) fun t layout =>
      layout.Records t ([] :: forest.opened) forest.placed := by
  have start : new.Records s [[]] [] := records_new
  have fresh : ([[]] ++ forest.opened.map ([] ++ ·)).Nodup := by
    simpa using means.nodup_opened
  have known : ([[]] : List (List String))[globalScope.index]? = some [] := rfl
  have all := yields_declareAll means.plain start known fresh
  rw [ofForest]
  simpa using all

end Layout
end Respell

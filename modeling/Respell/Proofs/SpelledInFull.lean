import Respell.Proofs.Outline
import Respell.Proofs.Output
import Respell.Proofs.Providers
import Respell.Proofs.SpelledPaths

/-! Full names and spelled names. Qualification builds the full name of a declaration from the names
of the declarations around it, and a spelled name is split into its parts and built up from these.
Main statement: what qualification answers with is the type of the name that the path of the
declaration comes to when it is spelled in one text, so that a binding of the spelled name is found
for it (`qualifying_spelled`). -/
namespace Respell

open Store

/-- A text that stands for itself where it is a part of a spelled name: it is a component without a
leading tilde. -/
structure IsPlainComponent (text : String) : Prop extends IsPathComponent text where
  noTilde : text.toList.head? ≠ some '~'

theorem IsPlainComponent.pieceTree {text : String} (plain : IsPlainComponent text) :
    pieceTree text.toList = .identifier text := by
  rw [pieceTree_of_no_tilde, plain.trimmed, String.ofList_toList]
  intro rest tilde
  rw [plain.trimmed] at tilde
  exact plain.noTilde (congrArg List.head? tilde)

theorem pathTree_nested {path : List String} {text : String}
    (plain : ∀ component ∈ path ++ [text], IsPlainComponent component) :
    pathTree ((path ++ [text]).map String.toList) = .nested path text := by
  have pieces : ∀ (base : Tree .name) (texts : List String),
      (∀ component ∈ texts, IsPlainComponent component) →
      (texts.map String.toList).foldl (fun base part => .qualified base (pieceTree part)) base =
        texts.foldl (fun base member => .qualified base (.identifier member)) base := by
    intro base texts plain
    induction texts generalizing base with
    | nil => rfl
    | cons first rest ih =>
      obtain ⟨here, later⟩ := List.forall_mem_cons.mp plain
      rw [List.map_cons, List.foldl_cons, List.foldl_cons, here.pieceTree, ih _ later]
  cases path with
  | nil => exact (plain text (by simp)).pieceTree
  | cons first path =>
    rw [List.cons_append] at plain ⊢
    obtain ⟨here, later⟩ := List.forall_mem_cons.mp plain
    rw [List.map_cons, pathTree, here.pieceTree, pieces _ _ later, Tree.nested]

/-! ### Declared names -/

/-- Everything on the path of an outlined declaration is a path that leads to the outline, or a
declared name. -/
theorem Forest.mem_path_outline {forest : Forest WrittenDeclaration} {outer : List String}
    {o : Outlined} (mem : o ∈ forest.outline outer) {text : String} (on : text ∈ o.path) :
    text ∈ outer ∨ ∃ other ∈ forest.outline outer, other.declaration.trimmed = text := by
  induction forest generalizing outer with
  | empty => cases mem
  | cons d members rest ihMembers ihRest =>
    rw [outline] at mem ⊢
    rcases List.mem_cons.mp mem with rfl | mem
    · rcases List.mem_append.mp on with around | own
      · exact .inl around
      · exact .inr ⟨_, List.mem_cons_self, (List.mem_singleton.mp own).symm⟩
    · rcases List.mem_append.mp mem with inside | after
      · rcases ihMembers inside with around | ⟨other, there, same⟩
        · rcases List.mem_append.mp around with around | own
          · exact .inl around
          · exact .inr ⟨_, List.mem_cons_self, (List.mem_singleton.mp own).symm⟩
        · exact .inr ⟨other, List.mem_cons_of_mem _ (List.mem_append_left _ there), same⟩
      · rcases ihRest after with around | ⟨other, there, same⟩
        · exact .inl around
        · exact .inr ⟨other, List.mem_cons_of_mem _ (List.mem_append_right _ there), same⟩

theorem WrittenDeclaration.isComponent_of_meaning {d : WrittenDeclaration} {root : DeclarationTree}
    (h : d.meaning = .ok root) : IsComponent d.name := by
  obtain ⟨name, trimmed, -⟩ := bind_eq_ok.mp h
  exact (succeeds_component_iff d.name).mp ⟨name, mapError_eq_ok.mp trimmed⟩

/-- Of the texts that can be declared, those without a colon and without a leading tilde stand for
themselves. -/
theorem WrittenDeclaration.isPlainComponent {d : WrittenDeclaration} {root : DeclarationTree}
    (h : d.meaning = .ok root) (single : ':' ∉ d.trimmed.toList)
    (noTilde : d.trimmed.toList.head? ≠ some '~') : IsPlainComponent d.trimmed := by
  have trimmed : Text.trim d.trimmed.toList = d.trimmed.toList := by
    rw [WrittenDeclaration.trimmed, String.toList_ofList, Text.trim_trim]
  have kept : Text.withoutTilde d.trimmed.toList = d.trimmed.toList := by
    unfold Text.withoutTilde
    split
    · rename_i tilde
      exact absurd (congrArg List.head? tilde) noTilde
    · rfl
  refine { single, trimmed, filled := ?_, noTilde }
  rw [kept, trimmed, WrittenDeclaration.trimmed, String.toList_ofList]
  exact (WrittenDeclaration.isComponent_of_meaning h).1

/-! ### Answers -/

namespace DeclarationTable

/-- The first meaning of a lookup is a placed declaration of the name. -/
theorem Records.lookup_eq {t : DeclarationTable} {s : Store} {paths : List (List String)}
    {placed : List Placed} (h : t.Records s paths placed) {name : NameId} {scope : ScopeId}
    {meaning : Meaning} {others : List Meaning} (found : t.lookup name scope = meaning :: others) :
    ∃ symbol path d, meaning.symbol = some symbol ∧ placed[symbol.index]? = some (path, d) ∧
      s.Denotes True (.identifier d.name) name := by
  rw [DeclarationTable.lookup] at found
  cases first : ((t.scopesFrom t.scopes.size scope).map (t.meaningsIn name)).find? (!·.isEmpty) with
  | none => simp [first] at found
  | some meanings =>
    rw [first, Option.getD_some] at found
    obtain ⟨sc, -, rfl⟩ := List.mem_map.mp (List.mem_of_find?_eq_some first)
    have mem : meaning ∈ t.meaningsIn name sc := by simp [found]
    obtain ⟨symbol, -, declared, there, rfl, rfl⟩ := DeclarationTable.mem_meaningsIn.mp mem
    have inside : symbol.index < placed.length := by
      rw [← h.symbols_size]
      exact (Array.getElem?_eq_some_iff.mp there).1
    obtain ⟨declared', there', stands⟩ := h.symbol _ _ _ (List.getElem?_eq_getElem inside)
    obtain rfl : declared = declared' := Option.some.inj (there.symm.trans there')
    exact ⟨symbol, _, _, rfl, List.getElem?_eq_getElem inside, stands.name⟩

/-- Qualification answers with the type of the name that is nested along the path of the first
meaning. -/
theorem Records.qualifying {t : DeclarationTable} {s : Store} {paths : List (List String)}
    {placed : List Placed} (h : t.Records s paths placed) {name : NameId} {scope : ScopeId}
    {meaning : Meaning} {others : List Meaning} (found : t.lookup name scope = meaning :: others)
    {symbol : SymbolId} {path : List String} {d : DeclarationTree}
    (own : meaning.symbol = some symbol) (here : placed[symbol.index]? = some (path, d)) :
    ∃ full slot v, s.Extends v ∧ v.Denotes True (.nested path d.name) full ∧
      v.typeNode? slot = some (.named full) ∧
      ∀ depth, Provider.qualifying.answer ⟨name, depth, some scope, ⟨some t.resolver⟩⟩ s =
        (⟨.stored slot, .none⟩, v) := by
  have chain := h.qualifiedName here
  cases names : t.qualifiedName symbol with
  | nil =>
    rw [names] at chain
    simpa using chain.length_eq
  | cons base rest =>
    rw [names] at chain
    have gave : ∀ n ∈ base :: rest, s.Denotes True (s.partTree .name n) n := fun n mem => by
      obtain ⟨declared, there, rfl⟩ := mem_qualifiedName (names ▸ mem)
      obtain ⟨_, _, stands⟩ := h.stands_of_mem there
      exact stands.name.self
    obtain ⟨first, more⟩ := List.forall_mem_cons.mp gave
    obtain ⟨grows, full⟩ := Provider.yields_qualifiedName first (.refl s) more s (.refl s)
    rw [qualifiedTree_nested chain] at full
    have fits : (Provider.qualifiedName base rest s).2.Fits
        (.type (.named (Provider.qualifiedName base rest s).1)) :=
      fits_type (by simpa [Node.ranks, Settled] using full.settled)
    have later := extends_internNode (Provider.qualifiedName base rest s).2
      (.type (.named (Provider.qualifiedName base rest s).1))
    refine ⟨_, _, _, grows.trans later, full.extend later,
      typeNode?_of_node? (node?_internNode fits), fun depth => ?_⟩
    have answer : Provider.qualifying.answer ⟨name, depth, some scope, ⟨some t.resolver⟩⟩ = (do
        let name ← Provider.qualifiedName base rest
        let type ← Store.namedType name
        pure ⟨type, .none⟩) := by
      simp only [Provider.qualifying, Provider.qualifiedAnswer, LookupContext.lookup,
        LookupContext.qualifiedName, resolver, found, own, Option.map_some, names]
    rw [answer]
    rfl

end DeclarationTable

/-- A name that is bound last to a defined type is replaced by it. -/
theorem Rewriting.rewriteQual_of_bound {m : BindingMap} {x : Session} {slot : Slot} {name : NameId}
    {type : QualType} (node : x.store.typeNode? slot = some (.named name))
    (defined : type.isUndefined = false) (e : Environment) (more : Qualifiers) :
    (rewriteQual (e.enter (.ofBindings (m.bind name type))) ⟨.stored slot, more⟩ x).1 =
      type.qualify more := by
  have bound : (Provider.ofBindings (m.bind name type)).answer
      ((e.enter (.ofBindings (m.bind name type))).query name) x.store = (type, x.store) := by
    change (((m.bind name type).get? name).getD .undefined, x.store) = _
    rw [BindingMap.get?_bind, if_pos rfl]
    rfl
  have reply : ((e.enter (.ofBindings (m.bind name type))).ask name x.store).1.type = type := by
    rw [Environment.ask]
    change (Environment.askInTurn _ (_ :: e.providers) x.store).1.type = type
    rw [Environment.askInTurn_cons_of_defined (by rw [bound, defined]), bound]
  rw [(rewriteQual_of_answered node (by rw [reply, defined]) more).1, reply]

/-- The stored type is the type of exactly the name that a spelled name is interned as. -/
structure Store.SpelledAs (s : Store) (spelled : Tree .name) (slot : Slot) (name : NameId) : Prop where
  named : s.typeNode? slot = some (.named name)
  internedAfter : ∀ t, s.Extends t → spelled.intern t = (name, t)
  internedBefore : ∀ t, (spelled.intern t).2.Extends s → (spelled.intern t).1 = name
  /-- A later binding of the name is found for the type. -/
  bound : ∀ (e : Environment) (m : BindingMap) type more (x : Session), type.isUndefined = false →
    s.Extends x.store → (Rewriting.rewriteQual (e.enter (.ofBindings (m.bind name type)))
      ⟨.stored slot, more⟩ x).1 = type.qualify more

theorem Store.Denotes.spelledAs {s : Store} {spelled : Tree .name} {slot : Slot} {name : NameId}
    (d : s.Denotes True spelled name) (plain : spelled.Plain)
    (node : s.typeNode? slot = some (.named name)) : s.SpelledAs spelled slot name where
  named := node
  internedAfter _ later := (d.extend later).found
  internedBefore t before := by
    have interned := (@yields_intern True _ _ plain t t (.refl t)).2
    exact (interned.extend before).unique d
  bound e m type more x defined later :=
    Rewriting.rewriteQual_of_bound (typeNode?_of_node? (later.nodes (node?_of_typeNode? node)))
      defined e more

/-- Where no declared name has a colon or a leading tilde, qualification answers a name that lookup
finds with the type of exactly the name that the path of the found declaration comes to when it is
spelled in one text. -/
theorem qualifying_spelled {written : Forest WrittenDeclaration} {scope : List String}
    {forest : Forest DeclarationTree} (accepted : scopeMeaning written scope = .ok forest)
    (apart : ∀ o ∈ written.outline [], ':' ∉ o.declaration.trimmed.toList ∧
      o.declaration.trimmed.toList.head? ≠ some '~') (s : Store) :
    ∃ layout t resolved, Layout.ofForest forest s = (layout, t) ∧
      layout.scopeAt? scope = some resolved ∧
      ∀ (u : Store) name meaning others, t.Extends u →
        layout.table.lookup name resolved = meaning :: others →
        ∃ k o spelled full slot v, meaning.symbol = some ⟨k⟩ ∧ (written.outline [])[k]? = some o ∧
          u.nameTree name = .identifier o.declaration.trimmed ∧
          spelledName (Text.joinPath o.path).toList = .ok spelled ∧
          (∀ depth, Provider.qualifying.answer
            ⟨name, depth, some resolved, ⟨some layout.table.resolver⟩⟩ u =
              (⟨.stored slot, .none⟩, v)) ∧
          v.SpelledAs spelled slot full := by
  obtain ⟨means, opened⟩ := means_of_scopeMeaning accepted
  have outlined : List.Forall₂ (fun p (o : Outlined) => p.1 = o.outer ∧
      o.declaration.meaning = .ok p.2) forest.placed (written.outline []) := by
    simpa using (means.placed_outline []).flip
  have records := (Layout.yields_ofForest (s := s) means s (.refl s)).2
  obtain ⟨resolved, found, -⟩ := records.scopeAt? opened
  refine ⟨_, _, resolved, rfl, found, fun u name meaning others later looked => ?_⟩
  have recorded := records.table.extend later
  obtain ⟨symbol, path, d, own, here, named⟩ := recorded.lookup_eq looked
  obtain ⟨o, there, rfl, declared⟩ := getElem?_of_forall₂ outlined here
  obtain ⟨trimmed, -⟩ := WrittenDeclaration.meaning_eq_ok declared
  obtain ⟨full, slot, v, grows, denotes, node, answer⟩ := recorded.qualifying looked own here
  rw [trimmed] at named denotes
  have plain : ∀ component ∈ o.path, IsPlainComponent component := by
    intro component on
    rcases Forest.mem_path_outline (List.mem_of_getElem? there) on with none | ⟨other, mem, rfl⟩
    · cases none
    · obtain ⟨k, at_⟩ := List.getElem?_of_mem mem
      obtain ⟨p, -, -, declared⟩ := getElem?_of_forall₂ outlined.flip at_
      exact WrittenDeclaration.isPlainComponent declared (apart other mem).1 (apart other mem).2
  have spelled : spelledName (Text.joinPath o.path).toList =
      .ok (.nested o.outer o.declaration.trimmed) := by
    rw [← pathTree_nested plain]
    exact spelledName_joinPath (by simp [Outlined.path]) fun component on =>
      (plain component on).toIsPathComponent
  exact ⟨symbol.index, o, _, full, slot, v, own, there, named.reads, spelled, answer,
    denotes.spelledAs (Tree.plain_nested _ _) node⟩

/-- A name that is declared at a prefix of the path of a scope is found from there, and the first
meaning is the declaration at the longest of these. -/
theorem Layout.Records.lookup_visible {layout : Layout} {written : Forest WrittenDeclaration}
    {forest : Forest DeclarationTree} {u : Store}
    (h : layout.Records u ([] :: forest.opened) forest.placed) (means : Means [] written forest)
    {scope path : List String} (opened : scope ∈ [] :: forest.opened) {resolved : ScopeId}
    (found : layout.scopeAt? scope = some resolved) {name : NameId} {text : String}
    (named : u.Denotes True (.identifier text) name)
    (visible : (scope.inits.reverse.find? fun p => written.declares (·.trimmed) text p) = some path) :
    ∃ meaning others, layout.table.lookup name resolved = meaning :: others ∧
      ∀ k o, meaning.symbol = some ⟨k⟩ → (written.outline [])[k]? = some o → o.path = path ++ [text] := by
  obtain ⟨resolved', found', known⟩ := h.scopeAt? opened
  obtain rfl : resolved = resolved' := Option.some.inj (found.symm.trans found')
  have innermost : DeclarationTable.innermost forest.placed (u.nameTree name) scope = some path := by
    have reads : u.nameTree name = .identifier text := named.reads
    rw [reads, innermost_placed means, visible]
  obtain ⟨symbol, type, others, d, looked, here, same⟩ :=
    h.table.lookup_eq_cons (named.grounded trivial) known innermost
  refine ⟨⟨some symbol, type⟩, others, looked, fun k o own there => ?_⟩
  obtain rfl := Option.some.inj own
  have outlined : List.Forall₂ (fun (o : Outlined) p => p.1 = o.outer ∧
      o.declaration.meaning = .ok p.2) (written.outline []) forest.placed := by
    simpa using means.placed_outline []
  obtain ⟨p, here', outer, declared⟩ := getElem?_of_forall₂ outlined there
  obtain rfl := Option.some.inj (here.symm.trans here')
  have trimmed := (WrittenDeclaration.meaning_eq_ok declared).1
  have own : d.name = text := Tree.identifier.inj (same.trans named.reads)
  rw [Outlined.path, ← outer, ← trimmed, own]

/-- The name `c`, seen from where it is declared. -/
theorem qualifying_spelled_nestedSiblings :
    ∃ forest, scopeMeaning nestedSiblings ["a", "b"] = .ok forest ∧
      ∃ layout t resolved, Layout.ofForest forest .initial = (layout, t) ∧
        ∃ spelled full slot v, spelledName "a::b::c".toList = .ok spelled ∧
          (∀ depth, Provider.qualifying.answer ⟨(identifierName "c" t).1, depth, some resolved,
            ⟨some layout.table.resolver⟩⟩ (identifierName "c" t).2 = (⟨.stored slot, .none⟩, v)) ∧
          v.SpelledAs spelled slot full := by
  obtain ⟨forest, accepted⟩ : ∃ forest, scopeMeaning nestedSiblings ["a", "b"] = .ok forest :=
    ⟨_, rfl⟩
  have apart : ∀ o ∈ nestedSiblings.outline [], ':' ∉ o.declaration.trimmed.toList ∧
      o.declaration.trimmed.toList.head? ≠ some '~' := by decide
  obtain ⟨layout, t, resolved, laid, found, answers⟩ := qualifying_spelled accepted apart .initial
  obtain ⟨means, opened⟩ := means_of_scopeMeaning accepted
  obtain ⟨-, records⟩ := Layout.yields_ofForest means .initial (.refl .initial)
  rw [id, laid] at records
  obtain ⟨later, named⟩ := @yields_intern True _ (.identifier "c") trivial t t (.refl t)
  obtain ⟨meaning, others, looked, path⟩ := Layout.Records.lookup_visible
    ⟨records.table.extend later, records.scopes⟩ means opened found named
    (show _ = some ["a", "b"] by decide)
  obtain ⟨k, o, spelled, full, slot, v, own, there, -, same, answer, spelledAs⟩ :=
    answers _ _ meaning others later looked
  rw [path k o own there] at same
  exact ⟨forest, accepted, layout, t, resolved, laid, spelled, full, slot, v, same, answer, spelledAs⟩

end Respell

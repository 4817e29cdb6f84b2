import Respell.Proofs.Tables

/-! What a run of calls makes visible. The run itself says which declarations there are, in which
order, and which scope is the parent of which; the table keeps a list of symbols for every scope
besides. Main statements: a table tells exactly the run that built it (`Tells.runAll`), lookup comes
to the declarations of the innermost scope on the way that declares the name
(`lookup_innermost`), and a further call changes nothing but what it has to (`growing_keeps`). -/
namespace Respell.DeclarationTable

variable {t t' : DeclarationTable} {calls : List Call} {c : Call} {scope other parent : ScopeId}
  {name : NameId} {type : QualType} {owner : Option SymbolId} {symbol : SymbolId}

/-! ### What a run says -/

/-- The declarations of a run, oldest first. The place of a declaration is its symbol. -/
def declarationsOf (calls : List Call) : List Declared :=
  calls.filterMap fun
    | .declare scope name type => some ⟨name, type, scope⟩
    | .newScope _ _ => none

/-- The parents of the scopes that are opened in a run, oldest first. -/
def parentsOf (calls : List Call) : List ScopeId :=
  calls.filterMap fun
    | .declare _ _ _ => none
    | .newScope parent _ => some parent

/-- The parent of a scope, if there is the scope after the run and if it has one. -/
def parentAfter (calls : List Call) (scope : ScopeId) : Option (Option ScopeId) :=
  (none :: (parentsOf calls).map some)[scope.index]?

/-- The symbols that a run declares in a scope, oldest first. -/
def symbolsIn (calls : List Call) (scope : ScopeId) : List SymbolId :=
  (declarationsOf calls).zipIdx.filterMap fun p => if p.1.scope = scope then some ⟨p.2⟩ else none

/-- What a run declares by a name in a scope, oldest first. -/
def declaredIn (calls : List Call) (name : NameId) (scope : ScopeId) : List Meaning :=
  (declarationsOf calls).zipIdx.filterMap fun p =>
    if p.1.name = name ∧ p.1.scope = scope then some ⟨some ⟨p.2⟩, p.1.type⟩ else none

theorem declarationsOf_declare : declarationsOf (calls ++ [.declare scope name type]) =
    declarationsOf calls ++ [⟨name, type, scope⟩] := by
  simp [declarationsOf]

theorem declarationsOf_newScope :
    declarationsOf (calls ++ [.newScope parent owner]) = declarationsOf calls := by
  simp [declarationsOf]

theorem parentAfter_declare :
    parentAfter (calls ++ [.declare scope name type]) = parentAfter calls := by
  funext other
  simp [parentAfter, parentsOf]

theorem parentsOf_newScope :
    parentsOf (calls ++ [.newScope parent owner]) = parentsOf calls ++ [parent] := by
  simp [parentsOf]

theorem symbolsIn_declare : symbolsIn (calls ++ [.declare scope name type]) other =
    symbolsIn calls other ++
      if other = scope then [⟨(declarationsOf calls).length⟩] else [] := by
  rw [symbolsIn, declarationsOf_declare, List.zipIdx_append, List.filterMap_append, ← symbolsIn]
  by_cases here : other = scope <;> simp [here, eq_comm (a := scope)]

theorem declaredIn_declare {asked : NameId} :
    declaredIn (calls ++ [.declare scope name type]) asked other = declaredIn calls asked other ++
      if asked = name ∧ other = scope then [⟨some ⟨(declarationsOf calls).length⟩, type⟩]
      else [] := by
  rw [declaredIn, declarationsOf_declare, List.zipIdx_append, List.filterMap_append, ← declaredIn]
  by_cases here : asked = name ∧ other = scope <;>
    simp [here, eq_comm (a := name), eq_comm (a := scope)]

theorem declaredIn_newScope :
    declaredIn (calls ++ [.newScope parent owner]) = declaredIn calls := by
  funext name scope
  rw [declaredIn, declarationsOf_newScope, ← declaredIn]

theorem mem_declarationsOf {declared : Declared} : declared ∈ declarationsOf calls ↔
    Call.declare declared.scope declared.name declared.type ∈ calls := by
  rw [declarationsOf, List.mem_filterMap]
  constructor
  · rintro ⟨c, mem, same⟩
    cases c with
    | declare scope name type => cases same; exact mem
    | newScope parent owner => cases same
  · intro mem
    exact ⟨_, mem, rfl⟩

theorem declaredIn_eq_nil_iff :
    declaredIn calls name scope = [] ↔ ∀ type, Call.declare scope name type ∉ calls := by
  rw [declaredIn, List.filterMap_eq_nil_iff]
  constructor
  · intro none type mem
    have listed : (⟨name, type, scope⟩ : Declared) ∈ declarationsOf calls :=
      mem_declarationsOf.mpr mem
    obtain ⟨k, there⟩ := List.getElem?_of_mem listed
    have known := none _ (List.mk_mem_zipIdx_iff_getElem?.mpr there)
    simp at known
  · rintro none ⟨declared, k⟩ mem
    refine if_neg ?_
    rintro ⟨rfl, rfl⟩
    have there := List.mem_of_getElem? (List.mk_mem_zipIdx_iff_getElem?.mp mem)
    exact none _ (mem_declarationsOf.mp there)

/-! ### What the table says -/

/-- The table has the declarations of the run in order, the parents of the run, and in every scope
the symbols that were declared there in order. -/
structure Tells (t : DeclarationTable) (calls : List Call) : Prop where
  symbols : t.symbols.toList = declarationsOf calls
  scopes : t.scopes.size = (parentsOf calls).length + 1
  parents : t.outward = parentAfter calls
  members : ∀ scope s, t.scope? scope = some s → s.members = symbolsIn calls scope

theorem Tells.size_symbols (h : t.Tells calls) : t.symbols.size = (declarationsOf calls).length := by
  rw [← h.symbols, Array.length_toList]

theorem Tells.symbol? (h : t.Tells calls) (symbol : SymbolId) :
    t.symbol? symbol = (declarationsOf calls)[symbol.index]? := by
  rw [DeclarationTable.symbol?, ← Array.getElem?_toList, h.symbols]

theorem tells_new : new.Tells [] := by
  constructor
  · rfl
  · rfl
  · funext ⟨i⟩
    cases i with
    | zero => rfl
    | succ i => simp [outward, scope?, new, parentAfter, parentsOf]
  · intro scope s there
    rw [eq_of_scope?_new there]
    rfl

theorem Tells.declare (h : t.Tells calls) :
    (t.declare scope name type).2.Tells (calls ++ [.declare scope name type]) := by
  have symbols : (t.declare scope name type).2.symbols = t.symbols.push ⟨name, type, scope⟩ := by
    rw [DeclarationTable.declare]
    split <;> rfl
  constructor
  · rw [symbols, Array.toList_push, h.symbols, declarationsOf_declare]
  · rw [size_scopes_declare, h.scopes, parentsOf, parentsOf]
    simp
  · rw [outward_declare, h.parents, parentAfter_declare]
  · intro other s there
    rw [scope?_declare] at there
    obtain ⟨s, before, rfl⟩ := Option.map_eq_some_iff.mp there
    rw [symbolsIn_declare, ← h.members other s before, h.size_symbols]
    split
    · rfl
    · exact (List.append_nil _).symm

theorem Tells.newScope (h : t.Tells calls) (sound : Sound t) :
    (t.newScope parent owner).2.Tells (calls ++ [.newScope parent owner]) := by
  have same : symbolsIn (calls ++ [.newScope parent owner]) = symbolsIn calls := by
    funext other
    rw [symbolsIn, declarationsOf_newScope, ← symbolsIn]
  constructor
  · rw [declarationsOf_newScope]
    exact h.symbols
  · rw [parentsOf_newScope, List.length_append, List.length_singleton, ← h.scopes]
    exact Array.size_push ..
  · funext other
    rw [parentAfter, parentsOf_newScope, List.map_append, ← List.cons_append]
    by_cases opened : other = ⟨t.scopes.size⟩
    · rw [opened, outward_newScope_self, h.scopes]
      simp
    · rw [outward_newScope_of_ne opened, h.parents, parentAfter]
      have apart : other.index ≠ (none :: (parentsOf calls).map some).length := by
        rw [List.length_cons, List.length_map, ← h.scopes]
        exact fun same => opened (congrArg ScopeId.mk same)
      rcases Nat.lt_or_gt_of_ne apart with inside | outside
      · exact (List.getElem?_append_left inside).symm
      · rw [List.getElem?_eq_none (Nat.le_of_lt outside), List.getElem?_eq_none]
        rw [List.length_append]
        exact outside
  · intro other s there
    rw [same]
    rw [scope?_newScope] at there
    split at there <;> rename_i last
    · -- Nothing was declared yet in a scope that is only now opened.
      obtain rfl := Option.some.inj there
      refine (List.filterMap_eq_nil_iff.mpr ?_).symm
      rintro ⟨declared, k⟩ mem
      have recorded := (h.symbol? ⟨k⟩).trans (List.mk_mem_zipIdx_iff_getElem?.mp mem)
      have placed := sound.placed _ _ recorded
      refine if_neg ?_
      rintro rfl
      exact absurd last (Nat.ne_of_lt placed)
    · exact h.members other s there

theorem Tells.runAll {past : List Call} (h : t.Tells past) (sound : Sound t)
    (inside : Throughout (fun t c => c.Inside t) t calls) :
    (t.runAll calls).Tells (past ++ calls) := by
  induction calls generalizing t past with
  | nil => rwa [List.append_nil]
  | cons c rest ih =>
    obtain ⟨now, later⟩ := inside
    have next : (c.run t).Tells (past ++ [c]) := by
      cases c with
      | declare scope name type => exact h.declare
      | newScope parent owner => exact h.newScope sound
    have all := ih next (sound.run now) later
    rwa [List.append_assoc] at all

/-! ### Lookup -/

theorem Tells.meaningsIn (h : t.Tells calls) {s : Scope} (there : t.scope? scope = some s)
    (name : NameId) : t.meaningsIn name s = declaredIn calls name scope := by
  rw [DeclarationTable.meaningsIn, h.members scope s there, symbolsIn, declaredIn,
    List.filterMap_filterMap]
  refine List.filterMap_congr fun p mem => ?_
  have recorded : t.symbol? ⟨p.2⟩ = some p.1 :=
    (h.symbol? ⟨p.2⟩).trans (List.mk_mem_zipIdx_iff_getElem?.mp mem)
  by_cases here : p.1.scope = scope
  · rw [if_pos here, Option.bind_some, recorded]
    simp [here]
  · rw [if_neg here, Option.bind_none, if_neg fun both => here both.2]

/-- What a run declares by a name in the first of some scopes in which it declares the name. -/
def declaredAlong (calls : List Call) (name : NameId) (way : List ScopeId) : List Meaning :=
  ((way.map (declaredIn calls name)).find? (!·.isEmpty)).getD []

theorem declaredAlong_cons_of_ne_nil {way : List ScopeId}
    (known : declaredIn calls name scope ≠ []) :
    declaredAlong calls name (scope :: way) = declaredIn calls name scope := by
  rw [declaredAlong, List.map_cons, List.find?_cons_of_pos (by simpa using known),
    Option.getD_some]

theorem declaredAlong_cons_of_eq_nil {way : List ScopeId}
    (unknown : declaredIn calls name scope = []) :
    declaredAlong calls name (scope :: way) = declaredAlong calls name way := by
  rw [declaredAlong, List.map_cons, List.find?_cons_of_neg (by simp [unknown]), declaredAlong]

theorem declaredAlong_append {inner rest : List ScopeId}
    (unknown : ∀ closer ∈ inner, declaredIn calls name closer = []) :
    declaredAlong calls name (inner ++ rest) = declaredAlong calls name rest := by
  induction inner with
  | nil => rfl
  | cons closer inner ih =>
    obtain ⟨here, others⟩ := List.forall_mem_cons.mp unknown
    rw [List.cons_append, declaredAlong_cons_of_eq_nil here, ih others]

theorem exists_scope_of_mem {way : List ScopeId} (trail : Trail t.outward scope way)
    (mem : other ∈ way) : ∃ s, t.scope? other = some s :=
  Option.ne_none_iff_exists'.mp (mt Option.map_eq_none_iff.mpr (trail.ne_none_of_mem mem))

theorem Tells.lookup (h : t.Tells calls) {way : List ScopeId}
    (trail : Trail t.outward scope way) (name : NameId) :
    t.lookup name scope = declaredAlong calls name way := by
  have same : (way.filterMap t.scope?).map (t.meaningsIn name) =
      way.map (declaredIn calls name) := by
    rw [List.map_filterMap, ← List.filterMap_eq_map]
    refine List.filterMap_congr fun other mem => ?_
    obtain ⟨s, there⟩ := exists_scope_of_mem trail mem
    rw [there, Option.map_some, h.meaningsIn there, Function.comp_apply]
  rw [lookup_eq_of_trail trail, firstMeanings, same, declaredAlong]

theorem index_lt_of_mem_symbolsIn (mem : symbol ∈ symbolsIn calls scope) :
    symbol.index < (declarationsOf calls).length := by
  obtain ⟨p, there, same⟩ := List.mem_filterMap.mp mem
  obtain ⟨-, same⟩ := Option.ite_none_right_eq_some.mp same
  obtain rfl := Option.some.inj same
  exact (List.getElem?_eq_some_iff.mp (List.mk_mem_zipIdx_iff_getElem?.mp there)).1

/-- Lookup goes outwards along the parents, over scopes that list only symbols that are there,
and comes to what is declared by the name in the first scope that declares it, in order of
declaration. -/
theorem lookup_innermost {calls : List Call} (inside : Throughout (fun t c => c.Inside t) new calls)
    (name : NameId) (scope : ScopeId) :
    ∃ way : List ScopeId, Trail (parentAfter calls) scope way ∧
      (∀ visited ∈ way, ∃ s, (new.runAll calls).scope? visited = some s ∧
        ∀ symbol ∈ s.members, symbol.index < (new.runAll calls).symbolCount) ∧
      ((∀ visited ∈ way, ∀ type, Call.declare visited name type ∉ calls) →
        (new.runAll calls).lookup name scope = []) ∧
      ∀ inner home outer, way = inner ++ home :: outer →
        (∀ closer ∈ inner, ∀ type, Call.declare closer name type ∉ calls) →
        (∃ type, Call.declare home name type ∈ calls) →
        (new.runAll calls).lookup name scope = declaredIn calls name home := by
  have tells : (new.runAll calls).Tells calls := tells_new.runAll sound_new inside
  obtain ⟨way, trail⟩ := (sound_new.runAll inside).waysEnd scope
  have found := tells.lookup trail name
  refine ⟨way, tells.parents ▸ trail, fun visited mem => ?_, fun unknown => ?_, ?_⟩
  · obtain ⟨s, there⟩ := exists_scope_of_mem trail mem
    refine ⟨s, there, fun symbol member => ?_⟩
    rw [tells.members visited s there] at member
    have bound := index_lt_of_mem_symbolsIn member
    rwa [← tells.symbols] at bound
  · have nothing : declaredAlong calls name (way ++ []) = declaredAlong calls name [] :=
      declaredAlong_append fun visited mem => declaredIn_eq_nil_iff.mpr (unknown visited mem)
    rw [List.append_nil] at nothing
    rw [found, nothing]
    rfl
  · rintro inner home outer rfl unknown ⟨type, known⟩
    rw [found, declaredAlong_append fun closer mem => declaredIn_eq_nil_iff.mpr (unknown closer mem)]
    exact declaredAlong_cons_of_ne_nil fun nothing => declaredIn_eq_nil_iff.mp nothing type known

/-- A name is declared outside and twice inside, where another name stands between the two, and a
scope is opened further in. -/
def shadowing : List Call :=
  [.declare globalScope ⟨.entry 0⟩ ⟨.void, .none⟩, .newScope globalScope (some ⟨0⟩),
    .declare ⟨1⟩ ⟨.entry 0⟩ .undefined, .declare ⟨1⟩ ⟨.entry 1⟩ ⟨.void, .none⟩,
    .declare ⟨1⟩ ⟨.entry 0⟩ ⟨.void, .none⟩, .newScope ⟨1⟩ none]

theorem inside_shadowing : Throughout (fun t c => c.Inside t) new shadowing :=
  ⟨rfl, rfl, rfl, rfl, rfl, rfl, trivial⟩

theorem trail_shadowing : Trail (parentAfter shadowing) ⟨2⟩ [⟨2⟩, ⟨1⟩, ⟨0⟩] :=
  .onward rfl (.onward rfl (.last rfl))

theorem not_declared_shadowing : ∀ closer ∈ [ScopeId.mk 2], ∀ type,
    Call.declare closer ⟨.entry 0⟩ type ∉ shadowing := by
  simp [shadowing, globalScope]

theorem lookup_innermost_shadowing : Throughout (fun t c => c.Inside t) new shadowing ∧
    (new.runAll shadowing).lookup ⟨.entry 0⟩ ⟨2⟩ =
      [⟨some ⟨1⟩, .undefined⟩, ⟨some ⟨3⟩, ⟨.void, .none⟩⟩] := by
  obtain ⟨way, trail, -, -, first⟩ := lookup_innermost inside_shadowing ⟨.entry 0⟩ ⟨2⟩
  have passed := trail.unique trail_shadowing
  exact ⟨inside_shadowing, first [⟨2⟩] ⟨1⟩ [⟨0⟩] passed not_declared_shadowing
    ⟨.undefined, by simp [shadowing]⟩⟩

/-! ### Further calls -/

theorem qualifiedName_eq_of_trails {chain : List SymbolId} (trail : Trail t.around symbol chain)
    (trail' : Trail t'.around symbol chain)
    (kept : ∀ known : SymbolId, known.index < t.symbols.size → t'.symbol? known = t.symbol? known) :
    t'.qualifiedName symbol = t.qualifiedName symbol := by
  have same : chain.filterMap t'.symbol? = chain.filterMap t.symbol? :=
    List.filterMap_congr fun known mem =>
      kept known (index_lt_of_around (trail.ne_none_of_mem mem))
  rw [qualifiedName_eq_of_trail trail, qualifiedName_eq_of_trail trail', same]

/-- The symbols of the table have the same declarations and full names in the other. -/
def KeepsSymbols (t t' : DeclarationTable) : Prop :=
  ∀ symbol : SymbolId, symbol.index < t.symbolCount →
    t'.symbol? symbol = t.symbol? symbol ∧ t'.qualifiedName symbol = t.qualifiedName symbol

theorem around_newScope (sound : Sound t) : (t.newScope parent owner).2.around = t.around := by
  funext symbol
  have same : (t.newScope parent owner).2.symbol? symbol = t.symbol? symbol := rfl
  rw [around, around, same]
  refine Option.map_congr fun declared recorded => ?_
  have placed := sound.placed symbol declared recorded
  rw [scope?_newScope, if_neg (Nat.ne_of_lt placed)]

theorem keepsSymbols_newScope (sound : Sound t) (older : OwnersOlder t) :
    t.KeepsSymbols (t.newScope parent owner).2 := by
  intro symbol known
  obtain ⟨chain, trail⟩ := older.exists_chain symbol
  refine ⟨rfl, qualifiedName_eq_of_trails trail ?_ fun _ _ => rfl⟩
  rwa [around_newScope sound]

theorem around_declare_of_ne (apart : symbol ≠ ⟨t.symbols.size⟩) :
    (t.declare scope name type).2.around symbol = t.around symbol := by
  have apart : symbol.index ≠ t.symbols.size := fun same => apart (congrArg SymbolId.mk same)
  rw [around, around, symbol?_declare, if_neg apart]
  refine Option.map_congr fun declared recorded => ?_
  rw [scope?_declare, Option.bind_map]
  refine Option.bind_congr fun s there => ?_
  rw [Function.comp_apply]
  split <;> rfl

theorem keepsSymbols_declare (older : OwnersOlder t) :
    t.KeepsSymbols (t.declare scope name type).2 := by
  have kept : ∀ known : SymbolId, known.index < t.symbols.size →
      (t.declare scope name type).2.symbol? known = t.symbol? known := by
    intro known old
    rw [symbol?_declare, if_neg (Nat.ne_of_lt old)]
  intro symbol known
  obtain ⟨chain, trail⟩ := older.exists_chain symbol
  -- Owners are older, so that no chain comes to the new symbol.
  have avoids : ¬ Leads t.around symbol ⟨t.symbols.size⟩ := fun leads =>
    Nat.not_le_of_lt known (leads.rank_le SymbolId.index older.index_lt)
  have trail' : Trail (t.declare scope name type).2.around symbol chain :=
    trail.avoid_insert (fun _ apart => around_declare_of_ne apart) avoids
  exact ⟨kept symbol known, qualifiedName_eq_of_trails trail trail' kept⟩

theorem Tells.lookup_newScope (h : t.Tells calls) (sound : Sound t) (known : t.hasScope scope) :
    (t.newScope parent owner).2.lookup name scope = t.lookup name scope := by
  obtain ⟨way, trail⟩ := sound.waysEnd scope
  have avoids : ¬ Leads t.outward scope ⟨t.scopes.size⟩ := fun leads =>
    Nat.not_le_of_lt (of_decide_eq_true known) (leads.rank_le ScopeId.index sound.parents)
  have trail' : Trail (t.newScope parent owner).2.outward scope way :=
    trail.avoid_insert (fun _ apart => outward_newScope_of_ne apart) avoids
  rw [(h.newScope sound).lookup trail', h.lookup trail, declaredAlong, declaredAlong,
    declaredIn_newScope]

/-- A lookup from the one scope comes to what the other declares by the name: the other is on the
way, and no scope before it declares the name. -/
def Sees (calls : List Call) (name : NameId) (start scope : ScopeId) : Prop :=
  ∃ inner outer, Trail (parentAfter calls) start (inner ++ scope :: outer) ∧
    ∀ closer ∈ inner, ∀ type, Call.declare closer name type ∉ calls

theorem declaredAlong_declare {asked : NameId} (way : List ScopeId) :
    declaredAlong (calls ++ [.declare scope name type]) asked way = declaredAlong calls asked way ∨
      asked = name ∧ ∃ inner outer, way = inner ++ scope :: outer ∧
        ∀ closer ∈ inner, declaredIn calls name closer = [] := by
  induction way with
  | nil => exact .inl rfl
  | cons visited rest ih =>
    by_cases new : asked = name ∧ visited = scope
    · obtain ⟨rfl, rfl⟩ := new
      exact .inr ⟨rfl, [], rest, rfl, fun _ mem => nomatch mem⟩
    · have same : declaredIn (calls ++ [.declare scope name type]) asked visited =
          declaredIn calls asked visited := by
        rw [declaredIn_declare, if_neg new, List.append_nil]
      by_cases unknown : declaredIn calls asked visited = []
      · rw [declaredAlong_cons_of_eq_nil unknown,
          declaredAlong_cons_of_eq_nil (same.trans unknown)]
        rcases ih with unchanged | ⟨rfl, inner, outer, rfl, before⟩
        · exact .inl unchanged
        · exact .inr ⟨rfl, visited :: inner, outer, rfl, List.forall_mem_cons.mpr ⟨unknown, before⟩⟩
      · left
        rw [declaredAlong_cons_of_ne_nil unknown, declaredAlong_cons_of_ne_nil (same ▸ unknown),
          same]

theorem Tells.lookup_declare_of_sees (h : t.Tells calls) {start : ScopeId}
    (sees : Sees calls name start scope) :
    (t.declare scope name type).2.lookup name start =
      declaredIn calls name scope ++ [⟨some ⟨t.symbols.size⟩, type⟩] := by
  obtain ⟨inner, outer, trail, unknown⟩ := sees
  have parents : parentAfter (calls ++ [.declare scope name type]) = parentAfter calls :=
    parentAfter_declare
  rw [← parents] at trail
  have here : declaredIn (calls ++ [.declare scope name type]) name scope =
      declaredIn calls name scope ++ [⟨some ⟨t.symbols.size⟩, type⟩] := by
    rw [declaredIn_declare, if_pos ⟨rfl, rfl⟩, h.size_symbols]
  have before : ∀ closer ∈ inner,
      declaredIn (calls ++ [.declare scope name type]) name closer = [] := by
    intro closer mem
    have apart : closer ≠ scope := fun same =>
      List.disjoint_of_nodup_append trail.nodup mem (same ▸ List.mem_cons_self ..)
    rw [declaredIn_declare, if_neg fun both => apart both.2, List.append_nil]
    exact declaredIn_eq_nil_iff.mpr (unknown closer mem)
  rw [h.declare.lookup (h.declare.parents ▸ trail), declaredAlong_append before,
    declaredAlong_cons_of_ne_nil, here]
  rw [here]
  exact List.append_ne_nil_of_right_ne_nil _ (List.cons_ne_nil _ _)

theorem Tells.lookup_declare_of_not_sees (h : t.Tells calls) (sound : Sound t) {start : ScopeId}
    {asked : NameId} (unseen : ¬ (asked = name ∧ Sees calls name start scope)) :
    (t.declare scope name type).2.lookup asked start = t.lookup asked start := by
  obtain ⟨way, trail⟩ := sound.waysEnd start
  rw [h.declare.lookup (outward_declare.symm ▸ trail), h.lookup trail]
  refine (declaredAlong_declare way).resolve_right ?_
  rintro ⟨named, inner, outer, rfl, unknown⟩
  refine unseen ⟨named, inner, outer, h.parents ▸ trail, fun closer mem => ?_⟩
  exact declaredIn_eq_nil_iff.mp (unknown closer mem)

/-- Opening a scope changes no declaration, no full name and no lookup from a scope that was there.
Declaring a name changes no declaration and no full name, and a lookup only where it is for that
name and comes to that scope: what it found there is then followed by the new declaration. -/
theorem growing_keeps {calls : List Call}
    (inside : Throughout (fun t c => c.Inside t) new calls) :
    (∀ parent owner,
      (new.runAll calls).KeepsSymbols ((new.runAll calls).newScope parent owner).2 ∧
      ∀ name scope, (new.runAll calls).hasScope scope →
        ((new.runAll calls).newScope parent owner).2.lookup name scope =
          (new.runAll calls).lookup name scope) ∧
    ∀ scope name type, (new.runAll calls).hasScope scope →
      (new.runAll calls).KeepsSymbols ((new.runAll calls).declare scope name type).2 ∧
      ∀ asked start,
        (asked = name ∧ Sees calls name start scope →
          ((new.runAll calls).declare scope name type).2.lookup asked start =
            declaredIn calls name scope ++
              [⟨((new.runAll calls).declare scope name type).1, type⟩]) ∧
        (¬ (asked = name ∧ Sees calls name start scope) →
          ((new.runAll calls).declare scope name type).2.lookup asked start =
            (new.runAll calls).lookup asked start) := by
  have tells : (new.runAll calls).Tells calls := tells_new.runAll sound_new inside
  have sound : Sound (new.runAll calls) := sound_new.runAll inside
  have older := ownersOlder_of_inside inside
  refine ⟨fun parent owner => ⟨keepsSymbols_newScope sound older, ?_⟩,
    fun scope name type there => ⟨keepsSymbols_declare older, fun asked start => ⟨?_, ?_⟩⟩⟩
  · intro name scope known
    exact tells.lookup_newScope sound known
  · rintro ⟨rfl, sees⟩
    rw [tells.lookup_declare_of_sees sees, declare, if_pos there]
  · exact tells.lookup_declare_of_not_sees sound

/-- A third declaration inside is seen from further in, and a second one outside is not. -/
theorem growing_keeps_shadowing : Throughout (fun t c => c.Inside t) new shadowing ∧
    ((new.runAll shadowing).declare ⟨1⟩ ⟨.entry 0⟩ .undefined).2.lookup ⟨.entry 0⟩ ⟨2⟩ =
      [⟨some ⟨1⟩, .undefined⟩, ⟨some ⟨3⟩, ⟨.void, .none⟩⟩, ⟨some ⟨4⟩, .undefined⟩] ∧
    ((new.runAll shadowing).declare globalScope ⟨.entry 0⟩ .undefined).2.lookup ⟨.entry 0⟩ ⟨2⟩ =
      (new.runAll shadowing).lookup ⟨.entry 0⟩ ⟨2⟩ := by
  obtain ⟨-, declares⟩ := growing_keeps inside_shadowing
  have sees : Sees shadowing ⟨.entry 0⟩ ⟨2⟩ ⟨1⟩ :=
    ⟨[⟨2⟩], [⟨0⟩], trail_shadowing, not_declared_shadowing⟩
  have hidden : ¬ Sees shadowing ⟨.entry 0⟩ ⟨2⟩ globalScope := by
    rintro ⟨inner, outer, trail, unknown⟩
    have passed := trail.unique trail_shadowing
    have between : ScopeId.mk 1 ∈ inner := by
      rcases inner with _ | ⟨first, _ | ⟨second, inner⟩⟩ <;> simp_all [globalScope]
    exact unknown ⟨1⟩ between .undefined (by simp [shadowing])
  refine ⟨inside_shadowing, ?_, ?_⟩
  · exact ((declares ⟨1⟩ ⟨.entry 0⟩ .undefined rfl).2 _ _).1 ⟨rfl, sees⟩
  · exact ((declares globalScope ⟨.entry 0⟩ .undefined rfl).2 _ _).2 fun both => hidden both.2

end Respell.DeclarationTable

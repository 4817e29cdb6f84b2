import Respell.Proofs.Providers
import Respell.Proofs.Scopes
import Respell.Proofs.Tables

/-! Names with more than one meaning. All meanings that a lookup comes to are declared in one scope,
so the same declarations are around them and they are called the same in full
(`lookup_qualifiedName`). Main statement: which of them comes first, and which types they are
declared with, makes no difference to qualification (`qualifying_alike`). -/
namespace Respell.DeclarationTable

variable {t : DeclarationTable} {scope : ScopeId} {name : NameId} {symbol : SymbolId}
  {declared : Declared}

/-! ### Members of scopes -/

/-- What is listed in a scope is recorded as declared there. -/
def MembersPlaced (t : DeclarationTable) : Prop :=
  ∀ scope s, t.scope? scope = some s → ∀ symbol ∈ s.members, ∃ declared,
    t.symbol? symbol = some declared ∧ declared.scope = scope

theorem membersPlaced_new : MembersPlaced new := by
  intro scope s there symbol member
  rw [eq_of_scope?_new there] at member
  cases member

theorem MembersPlaced.declare (h : MembersPlaced t) (type : QualType) :
    MembersPlaced (t.declare scope name type).2 := by
  have kept : ∀ other s, t.scope? other = some s → ∀ symbol ∈ s.members, ∃ declared,
      (t.declare scope name type).2.symbol? symbol = some declared ∧ declared.scope = other := by
    intro other s there symbol member
    obtain ⟨declared, recorded, same⟩ := h other s there symbol member
    have older := index_lt_of_symbol? recorded
    refine ⟨declared, ?_, same⟩
    rw [symbol?_declare, if_neg (Nat.ne_of_lt older), recorded]
  intro other s there symbol member
  rw [scope?_declare] at there
  obtain ⟨s, before, rfl⟩ := Option.map_eq_some_iff.mp there
  split at member <;> rename_i here
  · rcases List.mem_append.mp member with old | last
    · exact kept other s before symbol old
    · obtain rfl := List.mem_singleton.mp last
      exact ⟨⟨name, type, scope⟩, by rw [symbol?_declare, if_pos rfl], here.symm⟩
  · exact kept other s before symbol member

theorem MembersPlaced.newScope (h : MembersPlaced t) (parent : ScopeId) (owner : Option SymbolId) :
    MembersPlaced (t.newScope parent owner).2 := by
  intro other s there symbol member
  rw [scope?_newScope] at there
  split at there
  · obtain rfl := Option.some.inj there
    cases member
  · exact h other s there symbol member

theorem MembersPlaced.runAll (h : MembersPlaced t) (calls : List Call) :
    MembersPlaced (t.runAll calls) := by
  induction calls generalizing t with
  | nil => exact h
  | cons c rest ih =>
    cases c with
    | declare scope name type => exact ih (h.declare type)
    | newScope parent owner => exact ih (h.newScope parent owner)

theorem exists_of_mem_scopesFrom {bound : Nat} {s : Scope} (h : s ∈ t.scopesFrom bound scope) :
    ∃ other, t.scope? other = some s := by
  induction bound generalizing scope with
  | zero => cases h
  | succ bound ih =>
    rw [scopesFrom] at h
    cases there : t.scope? scope with
    | none => simp [there] at h
    | some first =>
      rw [there] at h
      rcases List.mem_cons.mp h with rfl | further
      · exact ⟨scope, there⟩
      · cases outer : first.parent with
        | none => simp [outer] at further
        | some parent =>
          rw [outer] at further
          exact ih further

/-- All meanings of a lookup are declarations of the name in one scope. -/
theorem MembersPlaced.lookup (h : MembersPlaced t) (name : NameId) (scope : ScopeId) :
    ∃ home, ∀ meaning ∈ t.lookup name scope, ∃ symbol declared, meaning.symbol = some symbol ∧
      t.symbol? symbol = some declared ∧ declared.name = name ∧ declared.scope = home := by
  rw [DeclarationTable.lookup]
  cases found : ((t.scopesFrom t.scopes.size scope).map (t.meaningsIn name)).find?
      (!·.isEmpty) with
  | none => exact ⟨scope, fun meaning mem => by cases mem⟩
  | some meanings =>
    obtain ⟨s, visited, rfl⟩ := List.mem_map.mp (List.mem_of_find?_eq_some found)
    obtain ⟨home, there⟩ := exists_of_mem_scopesFrom visited
    refine ⟨home, fun meaning mem => ?_⟩
    obtain ⟨symbol, member, declared, recorded, named, rfl⟩ := mem_meaningsIn.mp mem
    obtain ⟨declared', recorded', same⟩ := h home s there symbol member
    obtain rfl := Option.some.inj (recorded.symm.trans recorded')
    exact ⟨symbol, declared, rfl, recorded, named, same⟩

/-! ### Names in full -/

/-- The names of the declarations around a scope. -/
def outerNames (t : DeclarationTable) (scope : ScopeId) : List NameId :=
  ((t.scope? scope).bind (·.owner)).elim [] t.qualifiedName

/-- Where the chain of owners ends, a full name is that of the owner and then the own name. -/
theorem qualifiedName_eq_append (ends : ∃ chain, Trail t.around symbol chain)
    (recorded : t.symbol? symbol = some declared) :
    t.qualifiedName symbol = t.outerNames declared.scope ++ [declared.name] := by
  obtain ⟨chain, trail⟩ := ends
  have link : t.around symbol = some ((t.scope? declared.scope).bind (·.owner)) := by
    rw [around, recorded, Option.map_some]
  cases inside : (t.scope? declared.scope).bind (·.owner) with
  | none =>
    rw [inside] at link
    obtain rfl := trail.unique (.last link)
    simp [qualifiedName_eq_of_trail trail, outerNames, inside, recorded]
  | some owner =>
    rw [inside] at link
    obtain ⟨rest, rfl, onward⟩ := trail.tail link
    simp [qualifiedName_eq_of_trail trail, qualifiedName_eq_of_trail onward, outerNames, inside,
      recorded]

/-- All meanings of a lookup are called the same in full, by a name that ends in the one looked
up. -/
theorem lookup_qualifiedName {calls : List Call}
    (inside : Throughout (fun t c => c.Inside t) new calls) (name : NameId) (scope : ScopeId) :
    ∃ outer, ∀ meaning ∈ (new.runAll calls).lookup name scope, ∃ symbol,
      meaning.symbol = some symbol ∧ (new.runAll calls).qualifiedName symbol = outer ++ [name] := by
  have older := ownersOlder_of_inside inside
  obtain ⟨home, alike⟩ := (membersPlaced_new.runAll calls).lookup name scope
  refine ⟨(new.runAll calls).outerNames home, fun meaning mem => ?_⟩
  obtain ⟨symbol, declared, own, recorded, rfl, rfl⟩ := alike meaning mem
  exact ⟨symbol, own, qualifiedName_eq_append (older.exists_chain symbol) recorded⟩

/-! ### Declared types -/

def untyped (t : DeclarationTable) : DeclarationTable :=
  { t with symbols := t.symbols.map fun declared => { declared with type := .undefined } }

/-- The call, whatever type it declares. -/
def Call.untyped : Call → Call
  | declare scope name _ => declare scope name .undefined
  | newScope parent owner => newScope parent owner

theorem symbol?_untyped : t.untyped.symbol? symbol =
    (t.symbol? symbol).map fun declared => { declared with type := .undefined } := by
  simp only [symbol?, untyped, Array.getElem?_map]

theorem run_untyped (t : DeclarationTable) (c : Call) :
    (c.run t).untyped = c.untyped.run t.untyped := by
  cases c with
  | declare scope name type =>
    have same : t.untyped.hasScope scope = t.hasScope scope := rfl
    simp only [Call.run, Call.untyped, declare, same]
    split <;> simp [untyped]
  | newScope parent owner => simp [Call.run, Call.untyped, newScope, untyped]

theorem runAll_untyped (t : DeclarationTable) (calls : List Call) :
    (t.runAll calls).untyped = t.untyped.runAll (calls.map Call.untyped) := by
  induction calls generalizing t with
  | nil => rfl
  | cons c rest ih =>
    change ((c.run t).runAll rest).untyped = (c.untyped.run t.untyped).runAll _
    rw [ih, run_untyped]

theorem meaningsIn_untyped (s : Scope) : t.untyped.meaningsIn name s =
    (t.meaningsIn name s).map fun meaning => { meaning with type := .undefined } := by
  rw [meaningsIn, meaningsIn, List.map_filterMap]
  refine List.filterMap_congr fun symbol _ => ?_
  rw [symbol?_untyped]
  cases t.symbol? symbol with
  | none => rfl
  | some declared => by_cases named : declared.name = name <;> simp [named]

theorem scopesFrom_untyped (bound : Nat) (scope : ScopeId) :
    t.untyped.scopesFrom bound scope = t.scopesFrom bound scope := by
  induction bound generalizing scope with
  | zero => rfl
  | succ bound ih =>
    have same : t.untyped.scope? scope = t.scope? scope := rfl
    simp only [scopesFrom, same, ih]

theorem lookup_untyped (name : NameId) (scope : ScopeId) : t.untyped.lookup name scope =
    (t.lookup name scope).map fun meaning => { meaning with type := .undefined } := by
  have same : t.untyped.scopes.size = t.scopes.size := rfl
  simp only [DeclarationTable.lookup, scopesFrom_untyped, same]
  induction t.scopesFrom t.scopes.size scope with
  | nil => rfl
  | cons s rest ih =>
    simp only [List.map_cons, meaningsIn_untyped]
    by_cases unknown : t.meaningsIn name s = []
    · simpa [unknown] using ih
    · simp [unknown]

theorem ownersFrom_untyped (bound : Nat) (symbol : SymbolId) :
    (t.untyped.ownersFrom bound symbol).map (·.name) =
      (t.ownersFrom bound symbol).map (·.name) := by
  induction bound generalizing symbol with
  | zero => rfl
  | succ bound ih =>
    have same : ∀ scope, t.untyped.scope? scope = t.scope? scope := fun _ => rfl
    rw [ownersFrom, ownersFrom, symbol?_untyped]
    cases t.symbol? symbol with
    | none => rfl
    | some declared =>
      simp only [Option.map_some, List.map_cons, same]
      cases (t.scope? declared.scope).bind (·.owner) with
      | none => rfl
      | some owner => simp only [ih]

theorem qualifiedName_untyped (symbol : SymbolId) :
    t.untyped.qualifiedName symbol = t.qualifiedName symbol := by
  have same : t.untyped.symbols.size = t.symbols.size := Array.size_map
  rw [qualifiedName, qualifiedName, same, ownersFrom_untyped]

/-- Runs that differ in declared types come to the same declarations and full names. -/
theorem retyped_alike {calls retyped : List Call}
    (same : retyped.map Call.untyped = calls.map Call.untyped) :
    (∀ name scope, ((new.runAll retyped).lookup name scope).map (·.symbol) =
      ((new.runAll calls).lookup name scope).map (·.symbol)) ∧
      (new.runAll retyped).qualifiedName = (new.runAll calls).qualifiedName := by
  have tables : (new.runAll retyped).untyped = (new.runAll calls).untyped := by
    rw [runAll_untyped, runAll_untyped, same]
  constructor
  · intro name scope
    have bare := congrArg (fun t : DeclarationTable => (t.lookup name scope).map (·.symbol)) tables
    simpa only [lookup_untyped, List.map_map, Function.comp_def] using bare
  · funext symbol
    rw [← qualifiedName_untyped, tables, qualifiedName_untyped]

/-! ### Qualification -/

/-- The named type of a full name. -/
def typeInFull : List NameId → Storing QualType
  | [] => pure .undefined
  | base :: rest => do
    let name ← Provider.qualifiedName base rest
    let type ← Store.namedType name
    pure ⟨type, .none⟩

theorem qualifying_of_first {r : Resolver} {meaning : Meaning} {others : List Meaning}
    {outer : List NameId} (found : r.lookup name scope = meaning :: others)
    (own : meaning.symbol = some symbol) (inFull : r.qualifiedName symbol = outer ++ [name])
    (depth : Nat) : Provider.qualifying.answer ⟨name, depth, some scope, ⟨some r⟩⟩ =
      typeInFull (outer ++ [name]) := by
  simp only [Provider.qualifying, Provider.qualifiedAnswer, LookupContext.lookup,
    LookupContext.qualifiedName, found, own, Option.map_some, inFull]
  cases outer <;> rfl

/-- The meanings of a name are called the same in full, by a name that ends in theirs. So its
qualification, in a table that may differ in declared types and with its meanings in any order, is
always the type of that name and never a declared type. -/
theorem qualifying_alike {calls : List Call}
    (inside : Throughout (fun t c => c.Inside t) new calls) (name : NameId) (scope : ScopeId) :
    ∃ outer : List NameId,
      (∀ meaning ∈ (new.runAll calls).lookup name scope, ∃ symbol, meaning.symbol = some symbol ∧
        (new.runAll calls).qualifiedName symbol = outer ++ [name]) ∧
      ∀ retyped, retyped.map Call.untyped = calls.map Call.untyped → ∀ r : Resolver,
        r.qualifiedName = (new.runAll retyped).qualifiedName →
        (r.lookup name scope).Perm ((new.runAll retyped).lookup name scope) →
        ∀ depth, Provider.qualifying.answer ⟨name, depth, some scope, ⟨some r⟩⟩ =
          if (new.runAll calls).lookup name scope = [] then pure .undefined
          else typeInFull (outer ++ [name]) := by
  obtain ⟨outer, alike⟩ := lookup_qualifiedName inside name scope
  refine ⟨outer, alike, fun retyped same r fullNames order depth => ?_⟩
  obtain ⟨symbols, names⟩ := retyped_alike same
  have reordered : ((r.lookup name scope).map (·.symbol)).Perm
      (((new.runAll calls).lookup name scope).map (·.symbol)) :=
    symbols name scope ▸ order.map _
  cases found : r.lookup name scope with
  | nil =>
    rw [found] at reordered
    have none : (new.runAll calls).lookup name scope = [] :=
      List.map_eq_nil_iff.mp reordered.nil_eq.symm
    rw [if_pos none]
    simp only [Provider.qualifying, Provider.qualifiedAnswer, LookupContext.lookup, found]
  | cons first others =>
    rw [found] at reordered
    have listed : first.symbol ∈ ((new.runAll calls).lookup name scope).map (·.symbol) :=
      reordered.subset (List.mem_cons_self ..)
    obtain ⟨meaning, mem, symbolSame⟩ := List.mem_map.mp listed
    obtain ⟨symbol, own, inFull⟩ := alike meaning mem
    rw [if_neg (List.ne_nil_of_mem mem)]
    refine qualifying_of_first found (symbolSame.symm.trans own) ?_ depth
    rw [fullNames, names, inFull]

/-- A name is declared twice, with two types, in a scope that a declaration owns. -/
def declaredTwice : List Call :=
  [.declare globalScope ⟨.entry 0⟩ .undefined, .newScope globalScope (some ⟨0⟩),
    .declare ⟨1⟩ ⟨.entry 1⟩ ⟨.void, .none⟩, .declare ⟨1⟩ ⟨.entry 1⟩ .undefined]

theorem qualifying_alike_declaredTwice :
    Throughout (fun t c => c.Inside t) new declaredTwice ∧
      ((new.runAll declaredTwice).lookup ⟨.entry 1⟩ ⟨1⟩).length = 2 ∧
      ∃ outer : List NameId, outer ++ [⟨.entry 1⟩] = [⟨.entry 0⟩, ⟨.entry 1⟩] ∧
        ∀ r : Resolver, r.qualifiedName = (new.runAll declaredTwice).qualifiedName →
          r.lookup ⟨.entry 1⟩ ⟨1⟩ =
            ((new.runAll declaredTwice).lookup ⟨.entry 1⟩ ⟨1⟩).reverse →
          Provider.qualifying.answer ⟨⟨.entry 1⟩, 1, some ⟨1⟩, ⟨some r⟩⟩ =
            typeInFull (outer ++ [⟨.entry 1⟩]) := by
  have inside : Throughout (fun t c => c.Inside t) new declaredTwice := by
    exact ⟨rfl, rfl, rfl, rfl, trivial⟩
  obtain ⟨outer, alike, answers⟩ := qualifying_alike inside ⟨.entry 1⟩ ⟨1⟩
  have twice : (new.runAll declaredTwice).lookup ⟨.entry 1⟩ ⟨1⟩ =
      [⟨some ⟨1⟩, ⟨.void, .none⟩⟩, ⟨some ⟨2⟩, .undefined⟩] := by decide
  refine ⟨inside, by rw [twice]; rfl, outer, ?_, fun r names order => ?_⟩
  · obtain ⟨symbol, same, inFull⟩ := alike ⟨some ⟨1⟩, ⟨.void, .none⟩⟩ (by simp [twice])
    obtain rfl := Option.some.inj same
    rw [← inFull]
    decide
  · have answer := answers declaredTwice rfl r names (order ▸ List.reverse_perm _) 1
    rwa [if_neg (by simp [twice])] at answer

end Respell.DeclarationTable

import Respell.Declarations
import Respell.Proofs.Trails

/-! Runs of calls on a declaration table. Scopes lie on ways outwards and symbols on chains of
owners; the walks of a table are bounded, and where the way or the chain ends they are the whole of
it. A parent is taken as it comes, and a failed declaration stays recorded, so neither has to end.
Main statements: every way ends, and every search for a name with it, exactly when no scope is
opened in a parent from which the way leads to the new scope (`waysEnd_runAll_iff`); owners are
older than what is recorded for their scopes, and every full name is a chain without repetition,
exactly when no scope is opened with an owner that is not older than a declaration recorded for it
before (`ownersOlder_runAll_iff`); a run that names only scopes that are there does neither
(`throughout_of_inside`). -/
namespace Respell.DeclarationTable

variable {t : DeclarationTable} {scope other parent : ScopeId} {name : NameId} {type : QualType}
  {owner : Option SymbolId} {symbol : SymbolId}

/-! ### One call -/

theorem scope?_declare : (t.declare scope name type).2.scope? other =
    (t.scope? other).map fun s =>
      if other = scope then { s with members := s.members ++ [⟨t.symbols.size⟩] } else s := by
  rw [declare]
  split <;> rename_i known
  · simp only [scope?, Array.getElem?_modify]
    by_cases here : other = scope
    · simp [here]
    · have apart : scope.index ≠ other.index := fun same => here (congrArg ScopeId.mk same.symm)
      simp [here, apart]
  · by_cases here : other = scope
    · have missing : t.scope? scope = none := by simpa [hasScope, scope?] using known
      change t.scope? other = _
      rw [here, missing, Option.map_none]
    · simp [here, scope?]

theorem symbol?_declare : (t.declare scope name type).2.symbol? symbol =
    if symbol.index = t.symbols.size then some ⟨name, type, scope⟩ else t.symbol? symbol := by
  rw [declare]
  split <;> simp only [symbol?, Array.getElem?_push]

theorem size_scopes_declare : (t.declare scope name type).2.scopes.size = t.scopes.size := by
  rw [declare]
  split <;> simp

theorem size_symbols_declare : (t.declare scope name type).2.symbols.size = t.symbols.size + 1 := by
  rw [declare]
  split <;> exact Array.size_push ..

theorem scope?_newScope : (t.newScope parent owner).2.scope? other =
    if other.index = t.scopes.size then
      some ⟨some parent, owner.filter fun symbol => symbol.index < t.symbols.size, []⟩
    else t.scope? other := by
  simp only [newScope, scope?, Array.getElem?_push]

theorem index_lt_of_symbol? {declared : Declared} (h : t.symbol? symbol = some declared) :
    symbol.index < t.symbols.size :=
  (Array.getElem?_eq_some_iff.mp h).1

theorem index_lt_of_scope? {s : Scope} (h : t.scope? scope = some s) :
    scope.index < t.scopes.size :=
  (Array.getElem?_eq_some_iff.mp h).1

theorem eq_of_scope?_new {s : Scope} (h : new.scope? scope = some s) : s = ⟨none, none, []⟩ := by
  obtain ⟨i⟩ := scope
  obtain rfl : i = 0 := by simpa [new] using index_lt_of_scope? h
  exact (Option.some.inj h).symm

/-! ### Runs of calls -/

inductive Call
  | declare (scope : ScopeId) (name : NameId) (type : QualType)
  | newScope (parent : ScopeId) (owner : Option SymbolId)
  deriving DecidableEq, Repr

/-- The table after a call. It stays in use when the call fails. -/
def Call.run (t : DeclarationTable) : Call → DeclarationTable
  | declare scope name type => (t.declare scope name type).2
  | newScope parent owner => (t.newScope parent owner).2

def runAll (t : DeclarationTable) (calls : List Call) : DeclarationTable := calls.foldl Call.run t

/-- Every call of the run is allowed on the table that it comes to. -/
def Throughout (allowed : DeclarationTable → Call → Prop) : DeclarationTable → List Call → Prop
  | _, [] => True
  | t, c :: rest => allowed t c ∧ Throughout allowed (c.run t) rest

/-- What a call keeps exactly when it is allowed, a run keeps exactly when all its calls are. -/
theorem runAll_iff (inv : DeclarationTable → Prop) {good : DeclarationTable → Prop}
    {allowed : DeclarationTable → Call → Prop}
    (keeps : ∀ t (c : Call), inv t → inv (c.run t))
    (step : ∀ t (c : Call), inv t → (good (c.run t) ↔ good t ∧ allowed t c))
    (start : inv t) (calls : List Call) :
    good (t.runAll calls) ↔ good t ∧ Throughout allowed t calls := by
  induction calls generalizing t with
  | nil => simp [runAll, Throughout]
  | cons c rest ih =>
    have now := step t c start
    have later := ih (keeps t c start)
    rw [runAll, List.foldl_cons, ← runAll, later, now, Throughout, and_assoc]

/-! ### Ways outwards -/

/-- The parent of a scope, if there is the scope and if it has one. -/
def outward (t : DeclarationTable) (scope : ScopeId) : Option (Option ScopeId) :=
  (t.scope? scope).map (·.parent)

theorem outward_declare : (t.declare scope name type).2.outward = t.outward := by
  funext other
  rw [outward, scope?_declare, Option.map_map, outward]
  refine Option.map_congr fun s _ => ?_
  rw [Function.comp_apply]
  split <;> rfl

theorem outward_newScope_self :
    (t.newScope parent owner).2.outward ⟨t.scopes.size⟩ = some (some parent) := by
  rw [outward, scope?_newScope, if_pos rfl, Option.map_some]

theorem outward_newScope_of_ne (apart : other ≠ ⟨t.scopes.size⟩) :
    (t.newScope parent owner).2.outward other = t.outward other := by
  have apart : other.index ≠ t.scopes.size := fun same => apart (congrArg ScopeId.mk same)
  rw [outward, scope?_newScope, if_neg apart, outward]

theorem outward_fresh : t.outward ⟨t.scopes.size⟩ = none := by
  simp [outward, scope?]

theorem index_lt_of_outward (there : t.outward scope ≠ none) : scope.index < t.scopes.size := by
  obtain ⟨s, known⟩ := Option.ne_none_iff_exists'.mp (mt Option.map_eq_none_iff.mpr there)
  exact index_lt_of_scope? known

theorem scopesFrom_eq_of_trail {way : List ScopeId} (trail : Trail t.outward scope way)
    {bound : Nat} (enough : way.length ≤ bound) :
    t.scopesFrom bound scope = way.filterMap t.scope? := by
  induction trail generalizing bound with
  | absent gone =>
    have missing := Option.map_eq_none_iff.mp gone
    cases bound with
    | zero => rfl
    | succ bound => simp [scopesFrom, missing]
  | last ends =>
    obtain ⟨s, there, outermost⟩ := Option.map_eq_some_iff.mp ends
    cases bound with
    | zero => cases enough
    | succ bound => simp [scopesFrom, there, outermost]
  | onward link _ ih =>
    obtain ⟨s, there, inside⟩ := Option.map_eq_some_iff.mp link
    cases bound with
    | zero => cases enough
    | succ bound => simp [scopesFrom, there, inside, ih (Nat.le_of_succ_le_succ enough)]

/-- The search for a name ends, and these are the meanings that it comes to: it goes outwards until
a scope has a meaning for the name. -/
inductive Finds (t : DeclarationTable) (name : NameId) : ScopeId → List Meaning → Prop
  | absent {scope : ScopeId} (gone : t.scope? scope = none) : Finds t name scope []
  | here {scope : ScopeId} {s : Scope} (there : t.scope? scope = some s)
      (known : t.meaningsIn name s ≠ []) : Finds t name scope (t.meaningsIn name s)
  | outermost {scope : ScopeId} {s : Scope} (there : t.scope? scope = some s)
      (unknown : t.meaningsIn name s = []) (ends : s.parent = none) : Finds t name scope []
  | outwards {scope parent : ScopeId} {s : Scope} {meanings : List Meaning}
      (there : t.scope? scope = some s) (unknown : t.meaningsIn name s = [])
      (inside : s.parent = some parent) (onward : Finds t name parent meanings) :
      Finds t name scope meanings

def firstMeanings (t : DeclarationTable) (name : NameId) (scopes : List Scope) : List Meaning :=
  ((scopes.map (t.meaningsIn name)).find? (!·.isEmpty)).getD []

theorem firstMeanings_cons_of_ne_nil {s : Scope} {rest : List Scope}
    (known : t.meaningsIn name s ≠ []) :
    t.firstMeanings name (s :: rest) = t.meaningsIn name s := by
  rw [firstMeanings, List.map_cons, List.find?_cons_of_pos (by simpa using known), Option.getD_some]

theorem firstMeanings_cons_of_eq_nil {s : Scope} {rest : List Scope}
    (unknown : t.meaningsIn name s = []) :
    t.firstMeanings name (s :: rest) = t.firstMeanings name rest := by
  rw [firstMeanings, List.map_cons, List.find?_cons_of_neg (by simp [unknown]), firstMeanings]

theorem finds_of_trail {way : List ScopeId} (trail : Trail t.outward scope way) (name : NameId) :
    t.Finds name scope (t.firstMeanings name (way.filterMap t.scope?)) := by
  induction trail with
  | absent gone => exact .absent (Option.map_eq_none_iff.mp gone)
  | last ends =>
    obtain ⟨s, there, outermost⟩ := Option.map_eq_some_iff.mp ends
    rw [List.filterMap_cons_some there]
    by_cases unknown : t.meaningsIn name s = []
    · rw [firstMeanings_cons_of_eq_nil unknown]
      exact .outermost there unknown outermost
    · rw [firstMeanings_cons_of_ne_nil unknown]
      exact .here there unknown
  | onward link _ ih =>
    obtain ⟨s, there, inside⟩ := Option.map_eq_some_iff.mp link
    rw [List.filterMap_cons_some there]
    by_cases unknown : t.meaningsIn name s = []
    · rw [firstMeanings_cons_of_eq_nil unknown]
      exact .outwards there unknown inside ih
    · rw [firstMeanings_cons_of_ne_nil unknown]
      exact .here there unknown

theorem lookup_eq_of_trail {way : List ScopeId} (trail : Trail t.outward scope way) (name : NameId) :
    t.lookup name scope = t.firstMeanings name (way.filterMap t.scope?) := by
  have short : way.length ≤ t.scopes.size :=
    trail.length_le ScopeId.index (fun _ _ => congrArg ScopeId.mk) fun _ => index_lt_of_outward
  rw [lookup, scopesFrom_eq_of_trail trail short, firstMeanings]

theorem finds_lookup {way : List ScopeId} (trail : Trail t.outward scope way) (name : NameId) :
    t.Finds name scope (t.lookup name scope) := by
  rw [lookup_eq_of_trail trail]
  exact finds_of_trail trail name

def WaysEnd (t : DeclarationTable) : Prop := ∀ scope, ∃ way, Trail t.outward scope way

/-- The way from the parent does not lead to the scope that is being opened. -/
def Call.ParentApart (t : DeclarationTable) : Call → Prop
  | declare _ _ _ => True
  | newScope parent _ => ¬ Leads t.outward parent ⟨t.scopes.size⟩

theorem waysEnd_run_iff (t : DeclarationTable) (c : Call) :
    WaysEnd (c.run t) ↔ WaysEnd t ∧ c.ParentApart t := by
  cases c with
  | declare scope name type =>
    simp only [WaysEnd, Call.run, Call.ParentApart, outward_declare, and_true]
  | newScope parent owner =>
    exact forall_exists_trail_insert (fun _ => outward_newScope_of_ne) outward_newScope_self
      outward_fresh

theorem outward_new_ne (scope parent : ScopeId) : new.outward scope ≠ some (some parent) := by
  intro link
  obtain ⟨s, there, inside⟩ := Option.map_eq_some_iff.mp link
  rw [eq_of_scope?_new there] at inside
  cases inside

theorem waysEnd_new : WaysEnd new :=
  exists_trail_of_lt ScopeId.index fun scope parent link =>
    absurd link (outward_new_ne scope parent)

/-- Every way outwards ends without passing a scope twice, and with it every search, exactly when no
scope is opened in a parent whose way leads to the new scope. -/
theorem waysEnd_runAll_iff (calls : List Call) :
    Throughout (fun t c => c.ParentApart t) new calls ↔
      (∀ scope, ∃ way, Trail (new.runAll calls).outward scope way ∧ way.Nodup) ∧
      ∀ name scope, (new.runAll calls).Finds name scope ((new.runAll calls).lookup name scope) := by
  have whole : WaysEnd (new.runAll calls) ↔ _ :=
    runAll_iff (fun _ => True) (fun _ _ => id) (fun t c _ => waysEnd_run_iff t c) trivial calls
  constructor
  · intro apart
    have ends := whole.mpr ⟨waysEnd_new, apart⟩
    constructor
    · intro scope
      obtain ⟨way, trail⟩ := ends scope
      exact ⟨way, trail, trail.nodup⟩
    · intro name scope
      obtain ⟨way, trail⟩ := ends scope
      exact finds_lookup trail name
  · rintro ⟨ends, -⟩
    refine (whole.mp fun scope => ?_).2
    obtain ⟨way, trail, -⟩ := ends scope
    exact ⟨way, trail⟩

/-- Scopes that are opened in each other: the first one names its parent before that is there. -/
def mutualParents : DeclarationTable :=
  new.runAll [.newScope ⟨2⟩ none, .newScope ⟨1⟩ none, .declare ⟨1⟩ ⟨.entry 0⟩ ⟨.void, .none⟩,
    .declare ⟨2⟩ ⟨.entry 1⟩ ⟨.void, .none⟩]

theorem outward_mutualParents : mutualParents.outward ⟨1⟩ = some (some ⟨2⟩) ∧
    mutualParents.outward ⟨2⟩ = some (some ⟨1⟩) := by decide

/-- The way from such a scope never ends, nor does the search for a name that neither declares, and
each finds what the other declares. -/
theorem mutualParents_never_end :
    (¬ ∃ way, Trail mutualParents.outward ⟨1⟩ way) ∧
      (¬ ∃ meanings, mutualParents.Finds ⟨.entry 2⟩ ⟨1⟩ meanings) ∧
      mutualParents.lookup ⟨.entry 0⟩ ⟨2⟩ = [⟨some ⟨0⟩, ⟨.void, .none⟩⟩] ∧
      mutualParents.lookup ⟨.entry 1⟩ ⟨1⟩ = [⟨some ⟨1⟩, ⟨.void, .none⟩⟩] := by
  obtain ⟨there, back⟩ := outward_mutualParents
  refine ⟨?_, ?_, by decide, by decide⟩
  · rintro ⟨way, trail⟩
    exact trail.not_leads_back there (.single back)
  · rintro ⟨meanings, found⟩
    generalize start : (⟨1⟩ : ScopeId) = scope at found
    have inside : scope = ⟨1⟩ ∨ scope = ⟨2⟩ := .inl start.symm
    clear start
    induction found with
    | absent gone => rcases inside with rfl | rfl <;> cases gone
    | here at_ known =>
      rcases inside with rfl | rfl <;> cases at_ <;> exact known (by decide)
    | outermost at_ _ ends => rcases inside with rfl | rfl <;> cases at_ <;> cases ends
    | outwards at_ _ link _ ih =>
      rcases inside with rfl | rfl <;> cases at_ <;> cases link
      · exact ih (.inr rfl)
      · exact ih (.inl rfl)

/-! ### Chains of owners -/

/-- The owner of the scope that a symbol is recorded for, if there is the symbol and if there is an
owner. -/
def around (t : DeclarationTable) (symbol : SymbolId) : Option (Option SymbolId) :=
  (t.symbol? symbol).map fun declared => (t.scope? declared.scope).bind (·.owner)

theorem index_lt_of_around (there : t.around symbol ≠ none) : symbol.index < t.symbols.size := by
  obtain ⟨declared, known⟩ := Option.ne_none_iff_exists'.mp (mt Option.map_eq_none_iff.mpr there)
  exact index_lt_of_symbol? known

theorem ownersFrom_eq_of_trail {chain : List SymbolId} (trail : Trail t.around symbol chain)
    {bound : Nat} (enough : chain.length ≤ bound) :
    t.ownersFrom bound symbol = chain.filterMap t.symbol? := by
  induction trail generalizing bound with
  | absent gone =>
    have missing := Option.map_eq_none_iff.mp gone
    cases bound with
    | zero => rfl
    | succ bound => simp [ownersFrom, missing]
  | last ends =>
    obtain ⟨declared, there, outermost⟩ := Option.map_eq_some_iff.mp ends
    cases bound with
    | zero => cases enough
    | succ bound => simp [ownersFrom, there, outermost]
  | onward link _ ih =>
    obtain ⟨declared, there, inside⟩ := Option.map_eq_some_iff.mp link
    cases bound with
    | zero => cases enough
    | succ bound => simp [ownersFrom, there, inside, ih (Nat.le_of_succ_le_succ enough)]

theorem qualifiedName_eq_of_trail {chain : List SymbolId} (trail : Trail t.around symbol chain) :
    t.qualifiedName symbol = ((chain.filterMap t.symbol?).map (·.name)).reverse := by
  have short : chain.length ≤ t.symbols.size :=
    trail.length_le SymbolId.index (fun _ _ => congrArg SymbolId.mk) fun _ => index_lt_of_around
  rw [qualifiedName, ownersFrom_eq_of_trail trail short]

def OwnersDeclared (t : DeclarationTable) : Prop :=
  ∀ scope s owner, t.scope? scope = some s → s.owner = some owner → owner.index < t.symbols.size

/-- The owner of a scope is older than every symbol recorded for the scope. -/
def OwnersOlder (t : DeclarationTable) : Prop :=
  ∀ scope s owner, t.scope? scope = some s → s.owner = some owner →
    ∀ symbol declared, t.symbol? symbol = some declared → declared.scope = scope →
      owner.index < symbol.index

/-- The owner of the scope that is being opened is older than every symbol recorded for the scope
before it was there. -/
def Call.OwnerBefore (t : DeclarationTable) : Call → Prop
  | declare _ _ _ => True
  | newScope _ owner => ∀ o ∈ owner, o.index < t.symbols.size →
      ∀ symbol declared, t.symbol? symbol = some declared → declared.scope = ⟨t.scopes.size⟩ →
        o.index < symbol.index

theorem scope?_declare_owner {s : Scope}
    (h : (t.declare scope name type).2.scope? other = some s) :
    ∃ s', t.scope? other = some s' ∧ s.owner = s'.owner := by
  rw [scope?_declare] at h
  obtain ⟨s', there, rfl⟩ := Option.map_eq_some_iff.mp h
  refine ⟨s', there, ?_⟩
  split <;> rfl

theorem OwnersDeclared.run (h : OwnersDeclared t) (c : Call) : OwnersDeclared (c.run t) := by
  intro scope s owner there owned
  cases c with
  | declare place name type =>
    obtain ⟨s', there, same⟩ := scope?_declare_owner there
    have old := h scope s' owner there (same ▸ owned)
    exact size_symbols_declare ▸ Nat.lt_succ_of_lt old
  | newScope parent o =>
    rw [Call.run, scope?_newScope] at there
    split at there
    · obtain rfl := Option.some.inj there
      have known := (Option.filter_eq_some_iff.mp owned).2
      exact of_decide_eq_true known
    · exact h scope s owner there owned

theorem ownersOlder_declare_iff (known : OwnersDeclared t) :
    OwnersOlder (t.declare scope name type).2 ↔ OwnersOlder t := by
  constructor
  · intro older other s owner there owned symbol declared recorded same
    have kept : (t.declare scope name type).2.symbol? symbol = some declared := by
      rw [symbol?_declare, if_neg (Nat.ne_of_lt (index_lt_of_symbol? recorded)), recorded]
    refine older other _ owner (scope?_declare.trans (congrArg _ there)) ?_ symbol declared kept
      same
    split <;> exact owned
  · intro older other s owner there owned symbol declared recorded same
    obtain ⟨s', there, sameOwner⟩ := scope?_declare_owner there
    have owned : s'.owner = some owner := sameOwner ▸ owned
    rw [symbol?_declare] at recorded
    split at recorded <;> rename_i last
    · exact last ▸ known other s' owner there owned
    · exact older other s' owner there owned symbol declared recorded same

theorem ownersOlder_newScope_iff :
    OwnersOlder (t.newScope parent owner).2 ↔
      OwnersOlder t ∧ (Call.newScope parent owner).OwnerBefore t := by
  constructor
  · intro older
    constructor
    · intro other s o there owned symbol declared recorded same
      have kept : (t.newScope parent owner).2.scope? other = some s := by
        rw [scope?_newScope, if_neg (Nat.ne_of_lt (index_lt_of_scope? there)), there]
      exact older other s o kept owned symbol declared recorded same
    · intro o named known symbol declared recorded same
      have opened : (t.newScope parent owner).2.scope? ⟨t.scopes.size⟩ = some
          ⟨some parent, owner.filter fun symbol => symbol.index < t.symbols.size, []⟩ := by
        rw [scope?_newScope, if_pos rfl]
      refine older _ _ o opened ?_ symbol declared recorded same
      exact Option.filter_eq_some_iff.mpr ⟨named, decide_eq_true known⟩
  · rintro ⟨older, before⟩ other s o there owned symbol declared recorded same
    rw [scope?_newScope] at there
    split at there <;> rename_i last
    · obtain rfl := Option.some.inj there
      obtain ⟨named, known⟩ := Option.filter_eq_some_iff.mp owned
      exact before o named (of_decide_eq_true known) symbol declared recorded
        (same.trans (congrArg ScopeId.mk last))
    · exact older other s o there owned symbol declared recorded same

theorem ownersOlder_run_iff (known : OwnersDeclared t) (c : Call) :
    OwnersOlder (c.run t) ↔ OwnersOlder t ∧ c.OwnerBefore t := by
  cases c with
  | declare scope name type => exact (ownersOlder_declare_iff known).trans (and_true _).symm.to_iff
  | newScope parent owner => exact ownersOlder_newScope_iff

theorem ownersDeclared_new : OwnersDeclared new := by
  intro scope s owner there owned
  rw [eq_of_scope?_new there] at owned
  cases owned

theorem ownersOlder_new : OwnersOlder new := by
  intro scope s owner there owned
  rw [eq_of_scope?_new there] at owned
  cases owned

theorem OwnersOlder.index_lt (older : OwnersOlder t) (symbol owner : SymbolId)
    (link : t.around symbol = some (some owner)) : owner.index < symbol.index := by
  obtain ⟨declared, recorded, inside⟩ := Option.map_eq_some_iff.mp link
  obtain ⟨s, there, owned⟩ := Option.bind_eq_some_iff.mp inside
  exact older declared.scope s owner there owned symbol declared recorded rfl

theorem OwnersOlder.exists_chain (older : OwnersOlder t) (symbol : SymbolId) :
    ∃ chain, Trail t.around symbol chain :=
  exists_trail_of_lt SymbolId.index older.index_lt symbol

/-- Owners are older than what is recorded for their scopes, and with that every chain of owners
ends without repetition and is the full name, exactly when no scope is opened with an owner that is
not older than a declaration that failed there before. -/
theorem ownersOlder_runAll_iff (calls : List Call) :
    Throughout (fun t c => c.OwnerBefore t) new calls ↔
      OwnersOlder (new.runAll calls) ∧
      ∀ symbol, ∃ chain, Trail (new.runAll calls).around symbol chain ∧ chain.Nodup ∧
        (new.runAll calls).qualifiedName symbol =
          ((chain.filterMap (new.runAll calls).symbol?).map (·.name)).reverse := by
  have whole := runAll_iff OwnersDeclared (fun t c h => h.run c)
    (fun t c h => ownersOlder_run_iff h c) ownersDeclared_new calls
  constructor
  · intro before
    have stays := whole.mpr ⟨ownersOlder_new, before⟩
    refine ⟨stays, fun symbol => ?_⟩
    obtain ⟨chain, trail⟩ := stays.exists_chain symbol
    exact ⟨chain, trail, trail.nodup, qualifiedName_eq_of_trail trail⟩
  · rintro ⟨stays, -⟩
    exact (whole.mp stays).2

/-- A declaration fails in a scope that is opened only later, with a younger owner. -/
def youngerOwner : DeclarationTable :=
  new.runAll [.declare ⟨1⟩ ⟨.entry 0⟩ ⟨.void, .none⟩, .declare ⟨0⟩ ⟨.entry 1⟩ ⟨.void, .none⟩,
    .newScope ⟨0⟩ (some ⟨1⟩)]

/-- The declaration that failed owns the scope that it failed in. -/
def ownOwner : DeclarationTable :=
  new.runAll [.declare ⟨1⟩ ⟨.entry 0⟩ ⟨.void, .none⟩, .newScope ⟨0⟩ (some ⟨0⟩)]

theorem youngerOwner_not_older :
    ¬ OwnersOlder youngerOwner ∧ youngerOwner.qualifiedName ⟨0⟩ = [⟨.entry 1⟩, ⟨.entry 0⟩] ∧
      ¬ OwnersOlder ownOwner ∧ ¬ ∃ chain, Trail ownOwner.around ⟨0⟩ chain := by
  refine ⟨?_, by decide, ?_, ?_⟩
  · intro older
    exact absurd (older ⟨1⟩ _ ⟨1⟩ rfl rfl ⟨0⟩ _ rfl rfl) (by decide)
  · intro older
    exact absurd (older ⟨1⟩ _ ⟨0⟩ rfl rfl ⟨0⟩ _ rfl rfl) (by decide)
  · rintro ⟨chain, trail⟩
    have link : ownOwner.around ⟨0⟩ = some (some ⟨0⟩) := by decide
    exact trail.not_leads_back link .refl

/-! ### Runs that name existing scopes -/

def Call.Inside (t : DeclarationTable) : Call → Prop
  | declare scope _ _ => t.hasScope scope
  | newScope parent _ => t.hasScope parent

/-- Parents are older, and every symbol is recorded for a scope that is there. -/
structure Sound (t : DeclarationTable) : Prop where
  parents : ∀ scope parent, t.outward scope = some (some parent) → parent.index < scope.index
  placed : ∀ symbol declared, t.symbol? symbol = some declared →
    declared.scope.index < t.scopes.size

theorem sound_new : Sound new := by
  constructor
  · intro scope parent link
    exact absurd link (outward_new_ne scope parent)
  · intro symbol declared recorded
    simp [symbol?, new] at recorded

theorem Sound.run (h : Sound t) {c : Call} (inside : c.Inside t) : Sound (c.run t) := by
  cases c with
  | declare scope name type =>
    have known : scope.index < t.scopes.size := by simpa [Call.Inside, hasScope] using inside
    constructor
    · rw [Call.run, outward_declare]
      exact h.parents
    · intro symbol declared recorded
      rw [Call.run, symbol?_declare] at recorded
      rw [Call.run, size_scopes_declare]
      split at recorded
      · obtain rfl := Option.some.inj recorded
        exact known
      · exact h.placed symbol declared recorded
  | newScope parent owner =>
    have known : parent.index < t.scopes.size := by simpa [Call.Inside, hasScope] using inside
    constructor
    · intro scope outer link
      by_cases opened : scope = ⟨t.scopes.size⟩
      · rw [opened, Call.run, outward_newScope_self] at link
        obtain rfl := Option.some.inj (Option.some.inj link)
        rw [opened]
        exact known
      · rw [Call.run, outward_newScope_of_ne opened] at link
        exact h.parents scope outer link
    · intro symbol declared recorded
      have before := h.placed symbol declared recorded
      rw [Call.run, newScope, Array.size_push]
      exact Nat.lt_succ_of_lt before

theorem Sound.runAll {calls : List Call} (h : Sound t)
    (inside : Throughout (fun t c => c.Inside t) t calls) : Sound (t.runAll calls) := by
  induction calls generalizing t with
  | nil => exact h
  | cons c rest ih => exact ih (h.run inside.1) inside.2

theorem Sound.waysEnd (h : Sound t) : WaysEnd t := exists_trail_of_lt ScopeId.index h.parents

/-- A run in which every call names a scope that is there opens no scope that its parent leads to,
and none that something was recorded for before. -/
theorem throughout_of_inside {calls : List Call} (h : Sound t)
    (inside : Throughout (fun t c => c.Inside t) t calls) :
    Throughout (fun t c => c.ParentApart t) t calls ∧
      Throughout (fun t c => c.OwnerBefore t) t calls := by
  induction calls generalizing t with
  | nil => exact ⟨trivial, trivial⟩
  | cons c rest ih =>
    obtain ⟨now, later⟩ := inside
    obtain ⟨apart, before⟩ := ih (h.run now) later
    cases c with
    | declare scope name type => exact ⟨⟨trivial, apart⟩, ⟨trivial, before⟩⟩
    | newScope parent owner =>
      have known : parent.index < t.scopes.size := by simpa [Call.Inside, hasScope] using now
      refine ⟨⟨fun leads => ?_, apart⟩, ⟨fun o _ _ symbol declared recorded same => ?_, before⟩⟩
      · exact absurd (leads.rank_le ScopeId.index h.parents) (Nat.not_le_of_lt known)
      · have placed := h.placed symbol declared recorded
        rw [same] at placed
        exact absurd placed (Nat.lt_irrefl _)

theorem ownersOlder_of_inside {calls : List Call}
    (inside : Throughout (fun t c => c.Inside t) new calls) : OwnersOlder (new.runAll calls) :=
  (runAll_iff OwnersDeclared (fun _ c h => h.run c) (fun _ c h => ownersOlder_run_iff h c)
    ownersDeclared_new calls).mpr ⟨ownersOlder_new, (throughout_of_inside sound_new inside).2⟩

end Respell.DeclarationTable

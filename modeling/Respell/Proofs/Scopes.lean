import Mathlib.Data.List.Forall2
import Mathlib.Data.List.Infix
import Respell.Declarations
import Respell.Document.Meaning
import Respell.Proofs.Denotation

/-! Declaration tables as paths. A table records a list of paths and a list of declarations placed
at them when its scopes and symbols stand for these, number by number: the parent of a scope is at
the path without its last name, and its owner is the declaration of that name there. Main
statements: declaring and opening scopes record one entry more (`Records.declare`,
`Records.newScope`), lookup finds the longest prefix of a path at which the name is declared
(`Records.lookup`), and the full name of a declaration is its path and its own name
(`Records.qualifiedName`). -/
namespace Respell

/-- A declaration, with the path of the scope that it is made in. -/
abbrev Placed := List String × DeclarationTree

inductive Surroundings (paths : List (List String)) (placed : List Placed) (i : Nat) :
    List String → Option ScopeId → Option SymbolId → Prop
  | outermost : Surroundings paths placed i [] none none
  | inner {outer : List String} {d : DeclarationTree} {parent : ScopeId} {owner : SymbolId}
      (older : parent.index < i) (around : paths[parent.index]? = some outer)
      (owns : placed[owner.index]? = some (outer, d)) :
      Surroundings paths placed i (outer ++ [d.name]) (some parent) (some owner)

/-- The scope stands for the path number `i`: its members are the declarations placed there, and its
owner came before them. -/
structure Scope.Stands (sc : Scope) (paths : List (List String)) (placed : List Placed) (i : Nat)
    (path : List String) : Prop where
  surroundings : Surroundings paths placed i path sc.parent sc.owner
  members : ∀ symbol, symbol ∈ sc.members ↔ ∃ d, placed[symbol.index]? = some (path, d)
  older : ∀ owner ∈ sc.owner, ∀ k d, placed[k]? = some (path, d) → owner.index < k

structure Declared.Stands (declared : Declared) (s : Store) (paths : List (List String))
    (path : List String) (d : DeclarationTree) : Prop where
  scope : paths[declared.scope.index]? = some path
  name : s.Denotes True (.identifier d.name) declared.name
  type : s.Denotes True d.type declared.type

namespace DeclarationTable

/-- The scopes of the table stand for the paths, and its symbols for the placed declarations. -/
structure Records (t : DeclarationTable) (s : Store) (paths : List (List String))
    (placed : List Placed) : Prop where
  scopes_size : t.scopes.size = paths.length
  symbols_size : t.symbols.size = placed.length
  distinct : paths.Nodup
  scope : ∀ (i : Nat) path, paths[i]? = some path →
    ∃ sc : Scope, t.scopes[i]? = some sc ∧ sc.Stands paths placed i path
  symbol : ∀ (k : Nat) path d, placed[k]? = some (path, d) →
    ∃ declared : Declared, t.symbols[k]? = some declared ∧ declared.Stands s paths path d

end DeclarationTable

theorem getElem?_concat {α : Type} {l : List α} {i : Nat} {a b : α} :
    (l ++ [a])[i]? = some b ↔ l[i]? = some b ∨ i = l.length ∧ a = b := by
  rcases Nat.lt_trichotomy i l.length with less | same | more
  · rw [List.getElem?_append_left less]
    constructor
    · exact .inl
    · rintro (h | ⟨h, -⟩)
      · exact h
      · omega
  · subst same
    simp
  · have past : (l ++ [a])[i]? = none := List.getElem?_eq_none (by simp; omega)
    have none : l[i]? = none := List.getElem?_eq_none (by omega)
    rw [past, none]
    constructor
    · intro h
      cases h
    · rintro (h | ⟨h, -⟩)
      · cases h
      · omega

theorem Surroundings.mono {paths paths' : List (List String)} {placed placed' : List Placed}
    {i : Nat} {path : List String} {parent : Option ScopeId} {owner : Option SymbolId}
    (h : Surroundings paths placed i path parent owner)
    (morePaths : ∀ (i : Nat) path, paths[i]? = some path → paths'[i]? = some path)
    (morePlaced : ∀ (k : Nat) p, placed[k]? = some p → placed'[k]? = some p) :
    Surroundings paths' placed' i path parent owner := by
  cases h with
  | outermost => exact .outermost
  | inner older around owns => exact .inner older (morePaths _ _ around) (morePlaced _ _ owns)

theorem Surroundings.owner_lt {paths : List (List String)} {placed : List Placed} {i : Nat}
    {path : List String} {parent : Option ScopeId} {owner : Option SymbolId}
    (h : Surroundings paths placed i path parent owner) :
    ∀ symbol ∈ owner, symbol.index < placed.length := by
  cases h with
  | outermost => simp
  | inner _ _ owns =>
    rintro symbol ⟨⟩
    exact (List.getElem?_eq_some_iff.mp owns).1

namespace Scope.Stands

variable {sc : Scope} {paths : List (List String)} {placed : List Placed} {i : Nat}
  {path q : List String}

theorem newPath (h : sc.Stands paths placed i path) (p : List String) :
    sc.Stands (paths ++ [p]) placed i path := by
  constructor
  · exact h.surroundings.mono (fun _ _ hp => getElem?_concat.mpr (.inl hp)) fun _ _ => id
  · exact h.members
  · exact h.older

theorem older_concat (h : sc.Stands paths placed i path) (p : Placed) :
    ∀ owner ∈ sc.owner, ∀ k d, (placed ++ [p])[k]? = some (path, d) → owner.index < k := by
  intro owner ho k d hk
  rcases getElem?_concat.mp hk with old | ⟨rfl, -⟩
  · exact h.older owner ho k d old
  · exact h.surroundings.owner_lt owner ho

theorem surroundings_concat (h : sc.Stands paths placed i path) (p : Placed) :
    Surroundings paths (placed ++ [p]) i path sc.parent sc.owner :=
  h.surroundings.mono (fun _ _ => id) fun _ _ hp => getElem?_concat.mpr (.inl hp)

theorem declare_here (h : sc.Stands paths placed i path) (d : DeclarationTree) :
    Scope.Stands { sc with members := sc.members ++ [⟨placed.length⟩] } paths
      (placed ++ [(path, d)]) i path := by
  constructor
  · exact h.surroundings_concat _
  · intro symbol
    simp only [List.mem_append, List.mem_singleton, h.members, getElem?_concat]
    constructor
    · rintro (⟨d', old⟩ | rfl)
      · exact ⟨d', .inl old⟩
      · exact ⟨d, .inr ⟨rfl, rfl⟩⟩
    · rintro ⟨d', old | ⟨last, -⟩⟩
      · exact .inl ⟨d', old⟩
      · exact .inr (congrArg SymbolId.mk last)
  · exact h.older_concat _

theorem declare_elsewhere (h : sc.Stands paths placed i path) (apart : q ≠ path)
    (d : DeclarationTree) : sc.Stands paths (placed ++ [(q, d)]) i path := by
  constructor
  · exact h.surroundings_concat _
  · intro symbol
    rw [h.members]
    constructor
    · rintro ⟨d', old⟩
      exact ⟨d', getElem?_concat.mpr (.inl old)⟩
    · rintro ⟨d', there⟩
      rcases getElem?_concat.mp there with old | ⟨-, same⟩
      · exact ⟨d', old⟩
      · exact absurd (Prod.mk.inj same).1 apart
  · exact h.older_concat _

end Scope.Stands

namespace DeclarationTable

variable {t : DeclarationTable} {s s' : Store} {paths : List (List String)} {placed : List Placed}

/-! ### Building -/

theorem records_new : new.Records s [[]] [] := by
  constructor
  · rfl
  · rfl
  · simp
  · intro i path h
    obtain ⟨bound, rfl⟩ := List.getElem?_eq_some_iff.mp h
    obtain rfl : i = 0 := by simpa using bound
    exact ⟨⟨none, none, []⟩, rfl, .outermost, by simp, nofun⟩
  · simp

theorem Records.extend (h : t.Records s paths placed) (grows : s.Extends s') :
    t.Records s' paths placed := by
  constructor
  · exact h.scopes_size
  · exact h.symbols_size
  · exact h.distinct
  · exact h.scope
  · intro k path d known
    obtain ⟨declared, there, scope, name, type⟩ := h.symbol k path d known
    exact ⟨declared, there, scope, name.extend grows, type.extend grows⟩

theorem Records.declare (h : t.Records s paths placed) {scope : ScopeId} {path : List String}
    {d : DeclarationTree} {name : NameId} {type : QualType}
    (known : paths[scope.index]? = some path) (dn : s.Denotes True (.identifier d.name) name)
    (dt : s.Denotes True d.type type) :
    ∃ t', t.declare scope name type = (some ⟨placed.length⟩, t') ∧
      t'.Records s paths (placed ++ [(path, d)]) := by
  have inside := (List.getElem?_eq_some_iff.mp known).1
  have bound : scope.index < t.scopes.size := by rwa [h.scopes_size]
  rw [DeclarationTable.declare, if_pos (by simpa [hasScope] using bound), h.symbols_size]
  refine ⟨_, rfl, ?_⟩
  constructor
  · simpa using h.scopes_size
  · simp [h.symbols_size]
  · exact h.distinct
  · intro i q at_
    obtain ⟨sc, there, stands⟩ := h.scope i q at_
    by_cases here : scope.index = i
    · subst here
      obtain rfl : path = q := Option.some.inj (known.symm.trans at_)
      exact ⟨_, by simp [Array.getElem?_modify, there], stands.declare_here d⟩
    · -- Another scope with this path would be the same scope.
      have apart : path ≠ q := by
        rintro rfl
        exact here ((List.getElem?_inj inside h.distinct).mp (known.trans at_.symm))
      exact ⟨sc, by simp [Array.getElem?_modify, here, there], stands.declare_elsewhere apart d⟩
  · intro k q d' at_
    simp only [Array.getElem?_push, h.symbols_size]
    rcases getElem?_concat.mp at_ with old | ⟨rfl, same⟩
    · obtain ⟨declared, there, stands⟩ := h.symbol k q d' old
      have before := (List.getElem?_eq_some_iff.mp old).1
      exact ⟨declared, by rw [if_neg (by omega), there], stands⟩
    · obtain ⟨rfl, rfl⟩ := Prod.mk.inj same
      exact ⟨⟨name, type, scope⟩, by rw [if_pos rfl], known, dn, dt⟩

/-- A scope that is only now opened has no members yet. -/
theorem Records.ne_of_fresh (h : t.Records s paths placed) {path : List String}
    (fresh : path ∉ paths) (k : Nat) (d : DeclarationTree) : placed[k]? ≠ some (path, d) := by
  intro there
  obtain ⟨declared, -, stands⟩ := h.symbol k path d there
  exact fresh (List.mem_of_getElem? stands.scope)

theorem Records.newScope (h : t.Records s paths placed) {parent : ScopeId} {owner : SymbolId}
    {outer : List String} {d : DeclarationTree} (around : paths[parent.index]? = some outer)
    (owns : placed[owner.index]? = some (outer, d)) (fresh : outer ++ [d.name] ∉ paths) :
    ∃ t', t.newScope parent (some owner) = (⟨paths.length⟩, t') ∧
      t'.Records s (paths ++ [outer ++ [d.name]]) placed := by
  have inside : owner.index < t.symbols.size := by
    rw [h.symbols_size]
    exact (List.getElem?_eq_some_iff.mp owns).1
  rw [DeclarationTable.newScope, Option.filter_some, if_pos (by simpa using inside), h.scopes_size]
  refine ⟨_, rfl, ?_⟩
  constructor
  · simp [h.scopes_size]
  · exact h.symbols_size
  · rw [List.nodup_append]
    refine ⟨h.distinct, by simp, ?_⟩
    rintro q hq q' hq' rfl
    exact fresh (List.mem_singleton.mp hq' ▸ hq)
  · intro i q at_
    simp only [Array.getElem?_push, h.scopes_size]
    rcases getElem?_concat.mp at_ with old | ⟨rfl, rfl⟩
    · obtain ⟨sc, there, stands⟩ := h.scope i q old
      have before := (List.getElem?_eq_some_iff.mp old).1
      exact ⟨sc, by rw [if_neg (by omega), there], stands.newPath _⟩
    · refine ⟨⟨some parent, some owner, []⟩, by rw [if_pos rfl], ?_⟩
      constructor
      · have before := (List.getElem?_eq_some_iff.mp around).1
        exact .inner before (getElem?_concat.mpr (.inl around)) owns
      · intro symbol
        simp [h.ne_of_fresh fresh]
      · intro _ _ k d' there
        exact absurd there (h.ne_of_fresh fresh k d')
  · intro k q d' at_
    obtain ⟨declared, there, scope, name, type⟩ := h.symbol k q d' at_
    exact ⟨declared, there, getElem?_concat.mpr (.inl scope), name, type⟩

/-! ### Lookup -/

theorem mem_meaningsIn {name : NameId} {sc : Scope} {m : Meaning} :
    m ∈ t.meaningsIn name sc ↔ ∃ symbol ∈ sc.members, ∃ declared,
      t.symbol? symbol = some declared ∧ declared.name = name ∧ m = ⟨some symbol, declared.type⟩ := by
  rw [meaningsIn, List.mem_filterMap]
  refine exists_congr fun symbol => and_congr_right fun _ => ?_
  cases t.symbol? symbol with
  | none => simp
  | some declared => simp [eq_comm]

/-- Scopes that are on the way outwards stand for the prefixes of a path, the longest first. -/
theorem Records.scopesFrom (h : t.Records s paths placed) {i bound : Nat} {path : List String}
    (known : paths[i]? = some path) (enough : i < bound) :
    List.Forall₂ (fun sc q => ∃ j, t.scopes[j]? = some sc ∧ sc.Stands paths placed j q)
      (t.scopesFrom bound ⟨i⟩) path.inits.reverse := by
  induction bound generalizing i path with
  | zero => omega
  | succ bound ih =>
    obtain ⟨sc, there, stands⟩ := h.scope i path known
    have scope : t.scope? ⟨i⟩ = some sc := there
    rw [DeclarationTable.scopesFrom, scope]
    obtain ⟨parent, owner, members⟩ := sc
    obtain ⟨surroundings, mine, older⟩ := id stands
    dsimp only at surroundings ⊢
    cases surroundings with
    | outermost => exact .cons ⟨i, there, stands⟩ .nil
    | inner less around owns =>
      rw [List.inits_append, List.reverse_append]
      exact .cons ⟨i, there, stands⟩ (ih around (by omega))

theorem find?_map_of_forall₂ {α β γ : Type} {r : α → β → Prop} {f : α → γ} {p : γ → Bool}
    {g : β → Bool} {as : List α} {bs : List β} (related : List.Forall₂ r as bs)
    (agree : ∀ a b, r a b → p (f a) = g b) :
    Option.Rel (fun c b => ∃ a, r a b ∧ c = f a) ((as.map f).find? p) (bs.find? g) := by
  induction related with
  | nil => exact .none
  | @cons a b _ _ first _ ih =>
    rw [List.map_cons, List.find?_cons, List.find?_cons, agree a b first]
    cases g b with
    | true => exact .some ⟨a, first, rfl⟩
    | false => exact ih

def declaresAt (placed : List Placed) (tree : Tree .name) (path : List String) : Bool :=
  placed.any fun p => p.1 = path ∧ .identifier p.2.name = tree

theorem Records.mem_meaningsIn (h : t.Records s paths placed) {name : NameId}
    (grounded : (s.unfold .name name).Grounded s) {i : Nat} {sc : Scope} {path : List String}
    (stands : sc.Stands paths placed i path) {m : Meaning} :
    m ∈ t.meaningsIn name sc ↔ ∃ symbol declared d, placed[symbol.index]? = some (path, d) ∧
      t.symbol? symbol = some declared ∧ .identifier d.name = s.nameTree name ∧
      m = ⟨some symbol, declared.type⟩ := by
  rw [DeclarationTable.mem_meaningsIn]
  constructor
  · rintro ⟨symbol, member, declared, there, rfl, rfl⟩
    obtain ⟨d, here⟩ := (stands.members symbol).mp member
    obtain ⟨declared', there', dn⟩ := h.symbol _ _ _ here
    obtain rfl : declared = declared' := Option.some.inj (there.symm.trans there')
    exact ⟨symbol, declared, d, here, there, dn.name.reads.symm, rfl⟩
  · rintro ⟨symbol, declared, d, here, there, same, rfl⟩
    refine ⟨symbol, (stands.members symbol).mpr ⟨d, here⟩, declared, there, ?_, rfl⟩
    obtain ⟨declared', there', dn⟩ := h.symbol _ _ _ here
    obtain rfl : declared = declared' := Option.some.inj (there.symm.trans there')
    exact dn.name.eq_of_grounded grounded same

def innermost (placed : List Placed) (tree : Tree .name) (path : List String) :
    Option (List String) :=
  path.inits.reverse.find? (declaresAt placed tree)

/-- Lookup stops at the scope of the longest prefix that declares the name, if there is one. -/
theorem Records.find?_scopes (h : t.Records s paths placed) {name : NameId}
    (grounded : (s.unfold .name name).Grounded s) {i : Nat} {path : List String}
    (known : paths[i]? = some path) :
    Option.Rel (fun ms q => ∃ sc, (∃ j, t.scopes[j]? = some sc ∧ sc.Stands paths placed j q) ∧
        ms = t.meaningsIn name sc)
      (((t.scopesFrom t.scopes.size ⟨i⟩).map (t.meaningsIn name)).find? (!·.isEmpty))
      (innermost placed (s.nameTree name) path) := by
  have inside : i < t.scopes.size := by
    rw [h.scopes_size]
    exact (List.getElem?_eq_some_iff.mp known).1
  apply find?_map_of_forall₂ (h.scopesFrom known inside)
  rintro sc q ⟨j, -, stands⟩
  rw [Bool.eq_iff_iff, Bool.not_eq_true', List.isEmpty_eq_false_iff_exists_mem, declaresAt,
    List.any_eq_true]
  constructor
  · rintro ⟨m, hm⟩
    obtain ⟨symbol, _, d, here, -, same, -⟩ := (h.mem_meaningsIn grounded stands).mp hm
    exact ⟨(q, d), List.mem_of_getElem? here, by simpa using same⟩
  · rintro ⟨⟨q', d⟩, hd, both⟩
    obtain ⟨rfl, same⟩ : q' = q ∧ .identifier d.name = s.nameTree name := of_decide_eq_true both
    obtain ⟨k, here⟩ := List.getElem?_of_mem hd
    obtain ⟨declared, there, -⟩ := h.symbol k q' d here
    exact ⟨_, (h.mem_meaningsIn grounded stands).mpr ⟨⟨k⟩, declared, d, here, there, same, rfl⟩⟩

theorem Records.lookup_eq_nil (h : t.Records s paths placed) {name : NameId}
    (grounded : (s.unfold .name name).Grounded s) {i : Nat} {path : List String}
    (known : paths[i]? = some path) (absent : innermost placed (s.nameTree name) path = none) :
    t.lookup name ⟨i⟩ = [] := by
  have found := h.find?_scopes grounded known
  rw [absent] at found
  rw [DeclarationTable.lookup]
  cases nothing : ((t.scopesFrom t.scopes.size ⟨i⟩).map (t.meaningsIn name)).find? (!·.isEmpty) with
  | none => rfl
  | some ms => exact absurd (nothing ▸ found) nofun

theorem Records.lookup_eq_cons (h : t.Records s paths placed) {name : NameId}
    (grounded : (s.unfold .name name).Grounded s) {i : Nat} {path q : List String}
    (known : paths[i]? = some path) (declared : innermost placed (s.nameTree name) path = some q) :
    ∃ symbol type rest d, t.lookup name ⟨i⟩ = ⟨some symbol, type⟩ :: rest ∧
      placed[symbol.index]? = some (q, d) ∧ .identifier d.name = s.nameTree name := by
  have found := h.find?_scopes grounded known
  rw [declared] at found
  rw [DeclarationTable.lookup]
  cases something : ((t.scopesFrom t.scopes.size ⟨i⟩).map (t.meaningsIn name)).find? (!·.isEmpty) with
  | none => exact absurd (something ▸ found) nofun
  | some ms =>
    have nonempty := List.find?_some something
    rw [something] at found
    obtain ⟨sc, ⟨j, -, stands⟩, rfl⟩ : ∃ sc, (∃ j, t.scopes[j]? = some sc ∧
        sc.Stands paths placed j q) ∧ ms = t.meaningsIn name sc := by
      cases found with
      | some related => exact related
    cases all : t.meaningsIn name sc with
    | nil => simp [all] at nonempty
    | cons m rest =>
      obtain ⟨symbol, type, d, here, -, same, rfl⟩ :=
        (h.mem_meaningsIn grounded stands).mp (by rw [all]; exact List.mem_cons_self)
      exact ⟨symbol, _, rest, d, rfl, here, same⟩

/-! ### Full names -/

theorem Records.ownersFrom (h : t.Records s paths placed) {k bound : Nat} {path : List String}
    {d : DeclarationTree} (known : placed[k]? = some (path, d)) (enough : k < bound) :
    List.Forall₂ (fun text (declared : Declared) => s.Denotes True (.identifier text) declared.name)
      (path ++ [d.name]).reverse (t.ownersFrom bound ⟨k⟩) := by
  induction bound generalizing k path d with
  | zero => omega
  | succ bound ih =>
    obtain ⟨declared, there, stands⟩ := h.symbol k path d known
    obtain ⟨sc, at_, here⟩ := h.scope _ path stands.scope
    have symbol : t.symbol? ⟨k⟩ = some declared := there
    have scope : t.scope? declared.scope = some sc := at_
    rw [DeclarationTable.ownersFrom, symbol, List.reverse_append]
    dsimp only
    rw [scope, Option.bind_some]
    obtain ⟨parent, owner, members⟩ := sc
    obtain ⟨surroundings, -, older⟩ := here
    dsimp only at surroundings older ⊢
    cases surroundings with
    | outermost => exact .cons stands.name .nil
    | inner less around owns =>
      have earlier := older _ rfl k d known
      exact .cons stands.name (ih owns (by omega))

theorem Records.qualifiedName (h : t.Records s paths placed) {symbol : SymbolId}
    {path : List String} {d : DeclarationTree} (known : placed[symbol.index]? = some (path, d)) :
    List.Forall₂ (fun text name => s.Denotes True (.identifier text) name) (path ++ [d.name])
      (t.qualifiedName symbol) := by
  have inside : symbol.index < t.symbols.size := by
    rw [h.symbols_size]
    exact (List.getElem?_eq_some_iff.mp known).1
  have backwards := List.rel_reverse (h.ownersFrom known inside)
  rw [List.reverse_reverse] at backwards
  rw [DeclarationTable.qualifiedName, ← List.map_reverse, List.forall₂_map_right_iff]
  exact backwards

/-! ### All answers -/

theorem mem_lookup {name : NameId} {scope : ScopeId} {m : Meaning} (hm : m ∈ t.lookup name scope) :
    ∃ declared ∈ t.symbols, m.type = declared.type := by
  rw [DeclarationTable.lookup] at hm
  cases found : ((t.scopesFrom t.scopes.size scope).map (t.meaningsIn name)).find? (!·.isEmpty) with
  | none => simp [found] at hm
  | some ms =>
    rw [found, Option.getD_some] at hm
    obtain ⟨sc, -, rfl⟩ := List.mem_map.mp (List.mem_of_find?_eq_some found)
    obtain ⟨symbol, -, declared, there, -, rfl⟩ := DeclarationTable.mem_meaningsIn.mp hm
    exact ⟨declared, Array.mem_of_getElem? there, rfl⟩

theorem mem_ownersFrom {bound : Nat} {symbol : SymbolId} {declared : Declared}
    (h : declared ∈ t.ownersFrom bound symbol) : declared ∈ t.symbols := by
  induction bound generalizing symbol with
  | zero => cases h
  | succ bound ih =>
    rw [DeclarationTable.ownersFrom] at h
    cases there : t.symbol? symbol with
    | none => simp [there] at h
    | some first =>
      rw [there] at h
      rcases List.mem_cons.mp h with rfl | h
      · exact Array.mem_of_getElem? there
      · split at h
        · cases h
        · exact ih h

theorem mem_qualifiedName {symbol : SymbolId} {name : NameId} (h : name ∈ t.qualifiedName symbol) :
    ∃ declared ∈ t.symbols, name = declared.name := by
  obtain ⟨declared, hd, rfl⟩ := List.mem_map.mp (List.mem_reverse.mp h)
  exact ⟨declared, mem_ownersFrom hd, rfl⟩

theorem Records.stands_of_mem (h : t.Records s paths placed) {declared : Declared}
    (hd : declared ∈ t.symbols) : ∃ path d, declared.Stands s paths path d := by
  obtain ⟨k, there⟩ := Array.getElem?_of_mem hd
  have inside : k < placed.length := by
    rw [← h.symbols_size]
    exact (Array.getElem?_eq_some_iff.mp there).1
  obtain ⟨declared', there', stands⟩ := h.symbol k _ _ (List.getElem?_eq_getElem inside)
  obtain rfl : declared = declared' := Option.some.inj (there.symm.trans there')
  exact ⟨_, _, stands⟩

end DeclarationTable
end Respell

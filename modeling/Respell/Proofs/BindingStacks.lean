import Respell.Proofs.Agreement

/-! Stacks of binding maps. The map entered last is asked first, and in a map the last binding of a
name counts; so a stack of maps answers as the one map that makes all their bindings in order, as
long as no name is bound to the absence of a type, with which only a stack would ask on. Main
statement: rewrites under the stack and under the map are the same (`rewrite_stacked`). -/
namespace Respell

open Store

namespace BindingMap

/-- The map that makes all bindings of the maps, those of the first map first. -/
def bindAll (ms : List BindingMap) : BindingMap :=
  (ms.flatMap (·.bindings)).foldl (fun m binding => m.bind binding.1 binding.2) empty

theorem bindings_foldl (m : BindingMap) (bindings : List (NameId × QualType)) :
    (bindings.foldl (fun m binding => m.bind binding.1 binding.2) m).bindings =
      m.bindings ++ bindings := by
  induction bindings generalizing m with
  | nil => simp
  | cons binding rest ih =>
    rw [List.foldl_cons, ih, bind, List.append_assoc]
    rfl

theorem bindings_bindAll (ms : List BindingMap) :
    (bindAll ms).bindings = ms.flatMap (·.bindings) :=
  bindings_foldl empty _

theorem get?_bindAll (ms : List BindingMap) (name : NameId) :
    (bindAll ms).get? name = ms.reverse.findSome? (·.get? name) := by
  rw [get?, bindings_bindAll, List.reverse_flatMap, List.find?_flatMap, List.map_findSome?]
  rfl

/-- Only the bindings of a name count for it, in their order. -/
theorem get?_congr {m m' : BindingMap} {name : NameId}
    (same : m.bindings.filter (·.1 == name) = m'.bindings.filter (·.1 == name)) :
    m.get? name = m'.get? name := by
  rw [get?, get?, ← List.head?_filter, ← List.head?_filter, List.filter_reverse,
    List.filter_reverse, same]

theorem defined_of_forall {m : BindingMap} (each : ∀ b ∈ m.bindings, b.2.isUndefined = false) :
    m.Defined := by
  intro name type found
  obtain ⟨b, hb, rfl⟩ := Option.map_eq_some_iff.mp found
  exact each b (List.mem_reverse.mp (List.mem_of_find?_eq_some hb))

end BindingMap

/-! ### How many providers are entered -/

namespace Provider

/-- The provider, which is told that so many providers are entered. -/
def told (depth : Nat) (p : Provider) : Provider where
  answer q := p.answer { q with depth }
  grows q s := p.grows { q with depth } s

def IgnoresDepth (p : Provider) : Prop :=
  ∀ (q : Query) (depth : Nat), p.answer { q with depth } = p.answer q

theorem Standard.ignoresDepth {p : Provider} (standard : p.Standard) : p.IgnoresDepth := by
  intro q depth
  rcases standard with rfl | ⟨m, rfl⟩ <;> rfl

end Provider

namespace Environment

variable {e e' : Environment} {q : Query} {m : BindingMap} {rest : List Provider} {s : Store}

def told (e : Environment) (depth : Nat) : Environment :=
  { e with providers := e.providers.map (.told depth) }

theorem enterAll_eq (e : Environment) (ps : List Provider) :
    e.enterAll ps = { e with providers := ps.reverse ++ e.providers } := by
  unfold enterAll
  induction ps generalizing e with
  | nil => rfl
  | cons p ps ih => simp [ih, enter]

theorem askInTurn_told (q : Query) (depth : Nat) (ps : List Provider) :
    askInTurn q (ps.map (.told depth)) = askInTurn { q with depth } ps := by
  induction ps with
  | nil => rfl
  | cons p ps ih => simp only [List.map_cons, askInTurn, ih, Provider.told]

theorem askInTurn_ignoresDepth {ps : List Provider} (blind : ∀ p ∈ ps, p.IgnoresDepth) (q : Query)
    (depth : Nat) : askInTurn { q with depth } ps = askInTurn q ps := by
  induction ps with
  | nil => rfl
  | cons p ps ih =>
    simp only [askInTurn, blind p (by simp) q depth, ih fun p hp => blind p (by simp [hp])]

/-! ### Maps on top of each other -/

theorem askInTurn_of_bound {type : QualType} (bound : m.get? q.name = some type)
    (defined : type.isUndefined = false) :
    askInTurn q (.ofBindings m :: rest) s = (⟨type, 1⟩, s) := by
  have answer : (Provider.ofBindings m).answer q s = (type, s) := by
    simp only [Provider.ofBindings, Provider.ofAnswers, bound, Option.getD_some]
    rfl
  rw [askInTurn_cons_of_defined (by rwa [answer]), answer]

theorem askInTurn_of_unbound (unbound : m.get? q.name = none) :
    askInTurn q (.ofBindings m :: rest) s =
      (⟨(askInTurn q rest s).1.type, (askInTurn q rest s).1.asked + 1⟩, (askInTurn q rest s).2) := by
  have answer : (Provider.ofBindings m).answer q s = (.undefined, s) := by
    simp only [Provider.ofBindings, Provider.ofAnswers, unbound, Option.getD_none]
    rfl
  rw [askInTurn_cons_of_undefined (by rw [answer]; rfl), answer]

/-- The first map that binds the name answers for all of them. -/
theorem askInTurn_stacked {ms : List BindingMap} (defined : ∀ m ∈ ms, m.Defined)
    (first : m.get? q.name = ms.findSome? (·.get? q.name)) :
    (askInTurn q (ms.map .ofBindings ++ rest) s).1.type =
        (askInTurn q (.ofBindings m :: rest) s).1.type ∧
      (askInTurn q (ms.map .ofBindings ++ rest) s).2 =
        (askInTurn q (.ofBindings m :: rest) s).2 := by
  induction ms with
  | nil =>
    rw [askInTurn_of_unbound first]
    exact ⟨rfl, rfl⟩
  | cons top ms ih =>
    rw [List.map_cons, List.cons_append]
    cases found : top.get? q.name with
    | some type =>
      have present := defined top (by simp) _ _ found
      simp only [List.findSome?_cons, found] at first
      rw [askInTurn_of_bound found present, askInTurn_of_bound first present]
      exact ⟨rfl, rfl⟩
    | none =>
      simp only [List.findSome?_cons, found] at first
      rw [askInTurn_of_unbound found]
      exact ih (fun m hm => defined m (by simp [hm])) first

/-- Asked for a name, both environments answer the same, and leave the same store. -/
def SameReplies (e e' : Environment) : Prop :=
  ∀ name s, (e.ask name s).1.type = (e'.ask name s).1.type ∧ (e.ask name s).2 = (e'.ask name s).2

/-- A stack of maps replies as the one map, where the providers below it are told how many are
entered. -/
theorem sameReplies_told (e : Environment) {ms : List BindingMap} (defined : ∀ m ∈ ms, m.Defined)
    {m : BindingMap} (same : ∀ name, m.get? name = (BindingMap.bindAll ms).get? name) :
    (e.enterAll (ms.map .ofBindings)).SameReplies
      ((e.told (ms.length + e.depth)).enter (.ofBindings m)) := by
  intro name s
  let q : Query := ⟨name, ms.length + e.depth, e.scope, e.context⟩
  have stack : (e.enterAll (ms.map .ofBindings)).ask name =
      askInTurn q (ms.reverse.map .ofBindings ++ e.providers) := by
    rw [enterAll_eq, ask, query, depth, ← List.map_reverse, List.length_append, List.length_map,
      List.length_reverse]
    rfl
  have one : ((e.told (ms.length + e.depth)).enter (.ofBindings m)).ask name =
      askInTurn q (.ofBindings m :: e.providers) :=
    askInTurn_told (((e.told (ms.length + e.depth)).enter (.ofBindings m)).query name) _
      (.ofBindings m :: e.providers)
  rw [stack, one]
  have first : m.get? q.name = ms.reverse.findSome? (·.get? q.name) :=
    (same name).trans (BindingMap.get?_bindAll ms name)
  exact askInTurn_stacked (fun m hm => defined m (List.mem_reverse.mp hm)) first

theorem sameReplies_ignoresDepth {depth : Nat} (blind : ∀ p ∈ e.providers, p.IgnoresDepth) :
    ((e.told depth).enter (.ofBindings m)).SameReplies (e.enter (.ofBindings m)) := by
  have blind' : ∀ p ∈ Provider.ofBindings m :: e.providers, p.IgnoresDepth :=
    List.forall_mem_cons.mpr ⟨Provider.Standard.ignoresDepth (.inr ⟨m, rfl⟩), blind⟩
  have same (name : NameId) : ((e.told depth).enter (.ofBindings m)).ask name =
      (e.enter (.ofBindings m)).ask name := by
    have told := askInTurn_told (((e.told depth).enter (.ofBindings m)).query name) depth
      (.ofBindings m :: e.providers)
    refine told.trans ?_
    exact (askInTurn_ignoresDepth blind' ((e.enter (.ofBindings m)).query name) depth)
  exact fun name s => ⟨by rw [same], by rw [same]⟩

end Environment

/-! ### Whole rewrites -/

/-- The same comes of two runs: the result, the store and what is reported. -/
structure SameOutcome {α : Type} (run run' : α × Session) : Prop where
  result : run.1 = run'.1
  store : run.2.store = run'.2.store
  diagnostics : run.2.diagnostics = run'.2.diagnostics

namespace Rewriting

/-- From the session, every rewrite under the one environment comes to the same as under the
other. -/
structure SameRewrites (e e' : Environment) (x : Session) : Prop where
  types : ∀ type : QualType, SameOutcome (rewriteQual e type x) (rewriteQual e' type x)
  names : ∀ name : NameId, SameOutcome (rewriteName e name x) (rewriteName e' name x)

theorem sameRewrites_of_sameReplies {e e' : Environment} (same : e.SameReplies e') (x : Session) :
    SameRewrites e e' x := by
  have alike (name : NameId) : AsksAlike .alongside e e' x.store name := by
    refine fun t _ => ⟨nofun, fun u starts => ?_⟩
    obtain ⟨type, store⟩ := same name t
    rw [show u = t from starts]
    exact ⟨type.symm, store.symm⟩
  have run (p : Part) (h : p.Handle) (settled : x.store.Settled p h) :
      SameOutcome (rewritePart e p h x) (rewritePart e' p h x) := by
    have everywhere := Unfolding.everywhere_of_forall alike (fun _ _ => trivial)
      (x.store.unfold p h)
    obtain ⟨-, -, reported, told, again⟩ := repeats_rewritePart p h settled everywhere x (.refl _)
    obtain ⟨result, -, ends, told'⟩ := again x rfl
    exact ⟨result.symm, Eq.symm ends, told.trans told'.symm⟩
  constructor
  · intro type
    by_cases settled : x.store.Settled .qualified type
    · exact run .qualified type settled
    · rw [rewriteQual_of_not_settled settled, rewriteQual_of_not_settled settled]
      exact ⟨rfl, rfl, rfl⟩
  · intro name
    by_cases settled : x.store.Settled .name name
    · exact run .name name settled
    · rw [rewriteName_of_not_settled settled, rewriteName_of_not_settled settled]
      exact ⟨rfl, rfl, rfl⟩

/-- A stack of maps in which no name is bound to the absence of a type rewrites as the one map that
makes all their bindings in order. Of the providers below, only those that look at the number of
entered providers could tell the two apart. It makes no difference either in which order names are
bound, as long as the bindings of each name keep theirs. -/
theorem rewrite_stacked (e : Environment) {ms : List BindingMap} (defined : ∀ m ∈ ms, m.Defined)
    (x : Session) :
    SameRewrites (e.enterAll (ms.map .ofBindings))
        ((e.told (ms.length + e.depth)).enter (.ofBindings (.bindAll ms))) x ∧
      ((∀ p ∈ e.providers, p.IgnoresDepth) →
        SameRewrites (e.enterAll (ms.map .ofBindings)) (e.enter (.ofBindings (.bindAll ms))) x ∧
        ∀ m : BindingMap, (∀ name, m.bindings.filter (·.1 == name) =
            (ms.flatMap (·.bindings)).filter (·.1 == name)) →
          SameRewrites (e.enterAll (ms.map .ofBindings)) (e.enter (.ofBindings m)) x) := by
  refine ⟨sameRewrites_of_sameReplies (e.sameReplies_told defined fun _ => rfl) x, fun blind => ?_⟩
  have untold (m : BindingMap) (same : ∀ name, m.get? name = (BindingMap.bindAll ms).get? name) :
      (e.enterAll (ms.map .ofBindings)).SameReplies (e.enter (.ofBindings m)) := by
    intro name s
    obtain ⟨type, store⟩ := e.sameReplies_told defined same name s
    obtain ⟨type', store'⟩ := Environment.sameReplies_ignoresDepth blind name s
    exact ⟨type.trans type', store.trans store'⟩
  refine ⟨sameRewrites_of_sameReplies (untold _ fun _ => rfl) x, fun m reordered => ?_⟩
  refine sameRewrites_of_sameReplies (untold m fun name => BindingMap.get?_congr ?_) x
  rw [BindingMap.bindings_bindAll, reordered]

/-- Two maps, the second of which binds a name of the first again. -/
def shadowing : List BindingMap :=
  [⟨[(firstName.1, ⟨.void, .none⟩)]⟩,
    ⟨[(⟨.foreign 0⟩, ⟨.void, .none⟩), (firstName.1, ⟨.void, .single .const⟩)]⟩]

theorem rewrite_stacked_shadowing :
    SameRewrites (Environment.enterAll { providers := [.qualifying] } (shadowing.map .ofBindings))
      (Environment.enter { providers := [.qualifying] } (.ofBindings
        ⟨[(firstName.1, ⟨.void, .none⟩), (firstName.1, ⟨.void, .single .const⟩),
          (⟨.foreign 0⟩, ⟨.void, .none⟩)]⟩)) ⟨firstNamed.2, #[]⟩ := by
  have each : ∀ m ∈ shadowing, ∀ b ∈ m.bindings, b.2.isUndefined = false :=
    List.forall_mem_cons.mpr ⟨List.forall_mem_singleton.mpr rfl, List.forall_mem_singleton.mpr
      (List.forall_mem_cons.mpr ⟨rfl, List.forall_mem_singleton.mpr rfl⟩)⟩
  have defined := fun m hm => BindingMap.defined_of_forall (each m hm)
  have blind : ∀ p ∈ [Provider.qualifying], p.IgnoresDepth :=
    List.forall_mem_singleton.mpr (Provider.Standard.ignoresDepth (.inl rfl))
  refine ((rewrite_stacked { providers := [.qualifying] } defined _).2 blind).2 _ fun name => ?_
  -- A name is one of the two that are bound, or neither.
  by_cases first : firstName.1 = name
  · subst first
    simp [shadowing, (firstName_ne_foreign 0).symm]
  by_cases second : (⟨.foreign 0⟩ : NameId) = name
  · simp [shadowing, first, second]
  · simp [shadowing, first, second]

/-- A provider that looks at how many providers are entered. -/
def byDepth : Provider :=
  .ofAnswers fun q => if q.depth = 3 then ⟨.void, .none⟩ else ⟨.void, .single .const⟩

/-- Two maps that bind other names than `T`. -/
def elsewhere : List BindingMap :=
  [⟨[(⟨.foreign 0⟩, ⟨.void, .none⟩)]⟩, ⟨[(⟨.foreign 1⟩, ⟨.void, .none⟩)]⟩]

theorem not_sameRewrites_byDepth :
    (∀ m ∈ elsewhere, m.Defined) ∧
      ¬ SameRewrites (Environment.enterAll { providers := [byDepth] } (elsewhere.map .ofBindings))
        (Environment.enter { providers := [byDepth] } (.ofBindings (.bindAll elsewhere)))
        ⟨firstNamed.2, #[]⟩ := by
  constructor
  · intro m hm
    have each : ∀ m ∈ elsewhere, ∀ b ∈ m.bindings, b.2.isUndefined = false :=
      List.forall_mem_cons.mpr ⟨List.forall_mem_singleton.mpr rfl, List.forall_mem_singleton.mpr
        (List.forall_mem_singleton.mpr rfl)⟩
    exact BindingMap.defined_of_forall (each m hm)
  · intro same
    have unbound (tag : Nat) :
        BindingMap.get? ⟨[(⟨.foreign tag⟩, ⟨.void, .none⟩)]⟩ firstName.1 = none := by
      simp [BindingMap.get?, (firstName_ne_foreign tag).symm]
    have two : (Environment.enterAll { providers := [byDepth] }
        (elsewhere.map .ofBindings)).ask firstName.1 firstNamed.2 =
          (⟨⟨.void, .none⟩, 3⟩, firstNamed.2) := by
      change Environment.askInTurn ⟨firstName.1, 3, none, .empty⟩
        [.ofBindings ⟨[(⟨.foreign 1⟩, _)]⟩, .ofBindings ⟨[(⟨.foreign 0⟩, _)]⟩, byDepth] _ = _
      rw [Environment.askInTurn_of_unbound (unbound 1), Environment.askInTurn_of_unbound (unbound 0),
        Environment.askInTurn_cons_of_defined rfl]
      rfl
    have one : (Environment.enter { providers := [byDepth] }
        (.ofBindings (.bindAll elsewhere))).ask firstName.1 firstNamed.2 =
          (⟨⟨.void, .single .const⟩, 2⟩, firstNamed.2) := by
      have neither : (BindingMap.bindAll elsewhere).get? firstName.1 = none := by
        rw [BindingMap.get?_bindAll]
        simp [elsewhere, unbound]
      change Environment.askInTurn ⟨firstName.1, 2, none, .empty⟩
        [.ofBindings (.bindAll elsewhere), byDepth] _ = _
      rw [Environment.askInTurn_of_unbound neither, Environment.askInTurn_cons_of_defined rfl]
      rfl
    have results := (same.types ⟨.stored firstNamed.1, .none⟩).result
    rw [(rewriteQual_of_answered typeNode?_firstNamed (by rw [two]; rfl) .none).1, two,
      (rewriteQual_of_answered typeNode?_firstNamed (by rw [one]; rfl) .none).1, one] at results
    exact absurd results (by decide)

end Rewriting
end Respell

import Respell.Proofs.Rewriting

/-! What environments answer, as trees. A stack of providers answers with the first defined answer
of its providers; a binding map answers with what it binds, and qualification with the full name of
the first meaning. Main statements: the answers of the providers that come with the program do not
depend on what else is interned (`Shipped.answers`), so that rewriting with them is simultaneous
substitution of the answers that the environment gives at the start (`rewrite_eq_substitute`). -/
namespace Respell

open Store

variable {s t : Store} {exact : Prop}

def Store.answerTree (s : Store) (type : QualType) : Option (Tree .qualified) :=
  if type.isUndefined then none else some (s.partTree .qualified type)

theorem Store.isUndefined_of_answerTree {type : QualType} {tree : Tree .qualified}
    (h : s.answerTree type = some tree) : tree.isUndefined = false := by
  rw [answerTree] at h
  split at h <;> rename_i absent
  · cases h
  · rw [← Option.some.inj h, isUndefined_partTree]
    exact Bool.eq_false_iff.mpr absent

namespace Environment

def answerTree (e : Environment) (s : Store) (name : NameId) : Option (Tree .qualified) :=
  (e.ask name s).2.answerTree (e.ask name s).1.type

theorem Meets.eq_answerTree {expected : Option (Tree .qualified)} {type : QualType}
    (meets : Meets exact expected s type) : expected = s.answerTree type := by
  rw [Store.answerTree]
  cases expected with
  | none => rw [if_pos (show type.isUndefined = true from meets)]
  | some tree =>
    obtain ⟨present, d⟩ := meets
    rw [present, d.reads]
    rfl

theorem meets_answerTree {type : QualType} (d : s.Denotes exact (s.partTree .qualified type) type) :
    Meets exact (s.answerTree type) s type := by
  rw [Store.answerTree]
  split <;> rename_i absent
  · exact absent
  · exact ⟨Bool.eq_false_iff.mpr absent, d⟩

theorem Meets.extend {expected : Option (Tree .qualified)} {type : QualType}
    (meets : Meets exact expected s type) (grows : s.Extends t) : Meets exact expected t type := by
  cases expected with
  | none => exact meets
  | some tree => exact ⟨meets.1, meets.2.extend grows⟩

theorem answers_answerTree {e : Environment}
    (each : ∀ name, ∃ expected,
      Yields id s (e.ask name) fun t reply => Meets exact expected t reply.type) :
    e.Answers exact s (e.answerTree s) := by
  intro name
  obtain ⟨expected, yields⟩ := each name
  have now : expected = e.answerTree s name := (yields s (.refl s)).2.eq_answerTree
  exact now ▸ yields

end Environment

open Environment

/-! ### Providers -/

namespace Provider

/-- From `s` on, whatever else is interned, the provider answers queries with the given trees. -/
def Answers (p : Provider) (exact : Prop) (s : Store)
    (answer : Query → Option (Tree .qualified)) : Prop :=
  ∀ q, Yields id s (p.answer q) fun t type => Meets exact (answer q) t type

theorem answers_ofBindings {m : BindingMap}
    (bound : ∀ b ∈ m.bindings, s.Denotes exact (s.partTree .qualified b.2) b.2) :
    (ofBindings m).Answers exact s
      fun q => s.answerTree ((m.get? q.name).getD .undefined) := by
  intro q
  refine .pure fun t grows => (meets_answerTree ?_).extend grows
  cases found : m.get? q.name with
  | none => exact ⟨Nat.zero_le _, rfl, fun _ => by simp [Unfolding.Grounded, QualType.undefined]⟩
  | some type =>
    obtain ⟨b, hb, rfl⟩ := Option.map_eq_some_iff.mp found
    exact bound b (List.mem_reverse.mp (List.mem_of_find?_eq_some hb))

def qualifiedTree (s : Store) (base : Tree .name) (rest : List NameId) : Tree .name :=
  rest.foldl (fun tree member => .qualified tree (s.partTree .name member)) base

theorem yields_qualifiedName {tree : Tree .name} {base : NameId} {rest : List NameId}
    (first : t.Denotes exact tree base) (grows : s.Extends t)
    (names : ∀ n ∈ rest, s.Denotes exact (s.partTree .name n) n) :
    Yields id t (qualifiedName base rest) fun u h =>
      u.Denotes exact (qualifiedTree s tree rest) h := by
  induction rest generalizing tree base t with
  | nil => exact .pure fun u e => first.extend e
  | cons member rest ih =>
    apply (yields_qualified first ((names member (by simp)).extend grows)).bind
    intro u base' e d
    exact ih d (grows.trans e) fun n hn => names n (by simp [hn])

/-- What the full name of the first meaning of a queried name looks like. -/
def qualifiedAnswerTree (s : Store) (q : Query) : Option (Tree .qualified) :=
  match q.scope with
  | none => none
  | some scope =>
    match q.context.lookup q.name scope with
    | [] => none
    | meaning :: _ =>
      match meaning.symbol.map q.context.qualifiedName with
      | some (base :: rest) =>
        some (.qual (.named (qualifiedTree s (s.partTree .name base) rest)) .none)
      | _ => s.answerTree meaning.type

theorem yields_qualifiedAnswer {q : Query}
    (meanings : ∀ scope, ∀ m ∈ q.context.lookup q.name scope,
      s.Denotes exact (s.partTree .qualified m.type) m.type)
    (names : ∀ symbol, ∀ n ∈ q.context.qualifiedName symbol,
      s.Denotes exact (s.partTree .name n) n) :
    Yields id s (qualifiedAnswer q) fun t type => Meets exact (qualifiedAnswerTree s q) t type := by
  unfold qualifiedAnswer qualifiedAnswerTree
  cases q.scope with
  | none => exact .pure fun _ _ => rfl
  | some scope =>
    dsimp only
    cases found : q.context.lookup q.name scope with
    | nil => exact .pure fun _ _ => rfl
    | cons meaning others =>
      dsimp only
      have own := meanings scope meaning (by simp [found])
      rcases full : meaning.symbol.map q.context.qualifiedName with _ | _ | ⟨base, rest⟩
      · exact .pure fun t grows => (meets_answerTree own).extend grows
      · exact .pure fun t grows => (meets_answerTree own).extend grows
      · obtain ⟨symbol, -, chain⟩ := Option.map_eq_some_iff.mp full
        have first := names symbol base (by simp [chain])
        have others := fun n (hn : n ∈ rest) => names symbol n (by simp [chain, hn])
        apply (yields_qualifiedName first (.refl s) others).bind
        intro t name _ d
        apply (yields_named d).bind
        intro u type _ d
        have present : QualType.isUndefined ⟨type, .none⟩ = false :=
          (denotes_qual .none d).isUndefined
        exact .pure fun v grows => ⟨present, denotes_qual .none (d.extend grows)⟩

end Provider

/-! ### Stacks of providers -/

theorem yields_askInTurn_nil (q : Query) :
    Yields id s (askInTurn q []) fun t reply => Meets exact none t reply.type :=
  .pure fun _ _ => rfl

theorem yields_askInTurn_cons {q : Query} {p : Provider} {rest : List Provider}
    {first later : Option (Tree .qualified)}
    (top : Yields id s (p.answer q) fun t type => Meets exact first t type)
    (others : Yields id s (askInTurn q rest) fun t reply => Meets exact later t reply.type) :
    Yields id s (askInTurn q (p :: rest)) fun t reply =>
      Meets exact (first.or later) t reply.type := by
  apply top.bind
  intro t type grows meets
  cases first with
  | some tree =>
    rw [meets.1]
    exact .pure fun u e => meets.extend e
  | none =>
    have absent : type.isUndefined = true := meets
    rw [if_pos absent]
    apply (others.later grows).bind
    intro u reply _ meets
    exact .pure fun v e => meets.extend e

theorem yields_askInTurn {q : Query} {ps : List Provider}
    (each : ∀ p ∈ ps, ∃ expected, Yields id s (p.answer q) fun t type => Meets exact expected t type) :
    ∃ expected, Yields id s (askInTurn q ps) fun t reply => Meets exact expected t reply.type := by
  induction ps with
  | nil => exact ⟨none, yields_askInTurn_nil q⟩
  | cons p rest ih =>
    obtain ⟨first, top⟩ := each p (by simp)
    obtain ⟨later, others⟩ := ih fun p hp => each p (by simp [hp])
    exact ⟨first.or later, yields_askInTurn_cons top others⟩

/-- The providers of the environment are binding maps and qualification, and every handle that they
can answer with is one of the store's, or none that it gives out. -/
structure Environment.Shipped (e : Environment) (s : Store) : Prop where
  providers : ∀ p ∈ e.providers, p = .qualifying ∨
    ∃ m : BindingMap, p = .ofBindings m ∧ ∀ b ∈ m.bindings, s.Settled .qualified b.2
  meanings : ∀ name scope, ∀ m ∈ e.context.lookup name scope, s.Settled .qualified m.type
  names : ∀ symbol, ∀ n ∈ e.context.qualifiedName symbol, s.Settled .name n

theorem Environment.Shipped.answers {e : Environment} (shipped : e.Shipped s) :
    e.Answers False s (e.answerTree s) := by
  refine answers_answerTree fun name => yields_askInTurn ?_
  intro p hp
  rcases shipped.providers p hp with rfl | ⟨m, rfl, bound⟩
  · refine ⟨_, Provider.yields_qualifiedAnswer ?_ ?_⟩
    · exact fun scope m hm => ⟨shipped.meanings _ scope m hm, rfl, False.elim⟩
    · exact fun symbol n hn => ⟨shipped.names symbol n hn, rfl, False.elim⟩
  · exact ⟨_, Provider.answers_ofBindings
      (fun b hb => ⟨bound b hb, rfl, False.elim⟩) (e.query name)⟩

namespace Rewriting

/-! ### Rewriting is substitution -/

theorem settled_or_typeNode?_eq_none (s : Store) (type : TypeId) :
    s.Settled .type type ∨ ∃ slot, type = .stored slot ∧ s.typeNode? slot = none := by
  cases type with
  | undefined | void | reserved => exact .inl (Nat.zero_le _)
  | stored slot =>
    cases node : s.typeNode? slot with
    | none => exact .inr ⟨slot, rfl, node⟩
    | some n => exact .inl (covers_of_node? (node?_of_typeNode? node))

theorem settled_or_nameNode?_eq_none (s : Store) (name : NameId) :
    s.Settled .name name ∨ s.nameNode? name = none := by
  cases node : s.nameNode? name with
  | none => exact .inr rfl
  | some n => exact .inl (covers_of_node? (node?_of_nameNode? node))

/-- A handle that the store does not have yet is left as it is. -/
theorem rewriteQual_of_not_settled {e : Environment} {x : Session} {type : QualType}
    (unknown : ¬ x.store.Settled .qualified type) : rewriteQual e type x = (type, x) := by
  obtain ⟨type, qualifiers⟩ := type
  rcases settled_or_typeNode?_eq_none x.store type with settled | ⟨slot, rfl, node⟩
  · exact absurd settled unknown
  · exact rewriteQual_of_typeNode?_eq_none node

theorem rewriteName_of_not_settled {e : Environment} {x : Session} {name : NameId}
    (unknown : ¬ x.store.Settled .name name) : rewriteName e name x = (name, x) :=
  rewriteName_of_nameNode?_eq_none ((settled_or_nameNode?_eq_none x.store name).resolve_left unknown)

/-- With shipped providers, rewriting a handle is simultaneous substitution in its tree, by what the
environment answers at the start. -/
theorem rewrite_eq_substitute (e : Environment) (x : Session) (shipped : e.Shipped x.store) :
    (∀ type : QualType,
      (rewriteQual e type x).2.store.qualTree (rewriteQual e type x).1 =
        (x.store.unfold .qualified type).substitute (e.answerTree x.store)) ∧
    ∀ name : NameId,
      (rewriteName e name x).2.store.nameTree (rewriteName e name x).1 =
        (x.store.unfold .name name).substitute (e.answerTree x.store) := by
  have yields := fun p h settled =>
    yields_rewritePart shipped.answers p h settled False.elim x (.refl _)
  constructor
  · intro type
    rcases settled_or_typeNode?_eq_none x.store type.type with settled | ⟨slot, stored, node⟩
    · exact (yields .qualified type settled).2.reads
    · obtain ⟨type, qualifiers⟩ := type
      subst stored
      have passed := tree_unfold x.store .qualified ⟨.stored slot, qualifiers⟩
      rw [unfold_qual, unfold_of_typeNode?_eq_none node] at passed ⊢
      rw [rewriteQual_of_typeNode?_eq_none node, Unfolding.substitute, Unfolding.substitute,
        Tree.qualify, Qualifiers.none_union]
      · exact passed.symm
      · simp
  · intro name
    rcases settled_or_nameNode?_eq_none x.store name with settled | node
    · exact (yields .name name settled).2.reads
    · have passed := tree_unfold x.store .name name
      rw [unfold_of_nameNode?_eq_none node] at passed ⊢
      rw [rewriteName_of_nameNode?_eq_none node]
      exact passed.symm

def firstAtom : Atom × Store := internText "T" .initial

def firstName : NameId × Store := internName (.identifier firstAtom.1) firstAtom.2

def firstNamed : Slot × Store := firstName.2.internNode (.type (.named firstName.1))

theorem nameNode?_firstName :
    firstName.2.nameNode? firstName.1 = some (.identifier firstAtom.1) := by
  have known : firstAtom.2.CoversAtom firstAtom.1 := coversAtom_of_text? (text?_internText "T" _)
  refine nameNode?_internName (fits_of_forall ?_ (by simp [Node.ranks]))
  simpa [Node.atoms] using known

theorem firstName_ne_foreign (tag : Nat) : firstName.1 ≠ ⟨.foreign tag⟩ := by
  intro same
  have node := nameNode?_firstName
  rw [same] at node
  cases node

theorem typeNode?_firstNamed :
    firstNamed.2.typeNode? firstNamed.1 = some (.named firstName.1) := by
  have covers := covers_of_node? (node?_of_nameNode? nameNode?_firstName)
  refine typeNode?_of_node? (node?_internNode (fits_type ?_))
  simpa [Node.ranks] using covers

theorem nameNode?_firstNamed :
    firstNamed.2.nameNode? firstName.1 = some (.identifier firstAtom.1) :=
  nameNode?_of_node? ((extends_internNode firstName.2 _).nodes
    (node?_of_nameNode? nameNode?_firstName))

theorem text?_firstNamed : firstNamed.2.texts.text? firstAtom.1 = some "T" :=
  (extends_internNode firstName.2 _).texts ((extends_internName _ firstAtom.2).texts
    (text?_internText "T" .initial))

theorem unfold_firstNamed (qualifiers : Qualifiers) :
    firstNamed.2.unfold .qualified ⟨.stored firstNamed.1, qualifiers⟩ =
      .qual (.named firstName.1 (.identifier firstAtom.1 "T")) qualifiers := by
  rw [unfold_qual, unfold_of_typeNode? typeNode?_firstNamed, unfoldNode,
    unfold_of_nameNode? nameNode?_firstNamed, unfoldName, text_of_text? text?_firstNamed]

theorem settled_firstNamed (qualifiers : Qualifiers) :
    firstNamed.2.Settled .qualified ⟨.stored firstNamed.1, qualifiers⟩ :=
  covers_of_node? (node?_of_typeNode? typeNode?_firstNamed)

theorem grounded_firstNamed (qualifiers : Qualifiers) :
    (firstNamed.2.unfold .qualified ⟨.stored firstNamed.1, qualifiers⟩).Grounded firstNamed.2 := by
  rw [unfold_firstNamed]
  exact text?_firstNamed

def voidForName : Environment := { providers := [.ofBindings ⟨[(firstName.1, ⟨.void, .none⟩)]⟩] }

theorem shipped_voidForName (s : Store) : voidForName.Shipped s := by
  refine ⟨?_, (fun _ _ _ h => nomatch h), (fun _ _ h => nomatch h)⟩
  intro p hp
  refine .inr ⟨_, List.mem_singleton.mp hp, ?_⟩
  intro b hb
  rw [List.mem_singleton.mp hb]
  exact Nat.zero_le _

theorem answerTree_voidForName :
    voidForName.answerTree firstNamed.2 firstName.1 = some (.qual .void .none) := by
  have found : BindingMap.get? ⟨[(firstName.1, ⟨.void, .none⟩)]⟩ firstName.1 =
      some ⟨.void, .none⟩ := by simp [BindingMap.get?]
  have reply : voidForName.ask firstName.1 firstNamed.2 = (⟨⟨.void, .none⟩, 1⟩, firstNamed.2) := by
    simp only [Environment.ask, voidForName, askInTurn, Environment.query, Provider.ofBindings,
      Provider.ofAnswers, found, pure_bind]
    rfl
  rw [Environment.answerTree, reply, Store.answerTree, partTree, qualTree, typeTree]
  rfl

end Rewriting
end Respell

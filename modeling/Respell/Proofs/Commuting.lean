import Respell.Proofs.Entries
import Respell.Proofs.Walks

/-! Rewrites that share a store. What a rewrite adds to the store is a set of entries that depends
only on its handle and its environment, and not on what else was interned. Main statements: every
rewrite of a part that the store gave out adds such a set (`exists_brings_rewritePart`), so that two
rewrites may be run in either order: their results read and print the same, they report the same,
and the store ends with the same numbers of types, names and texts (`run_commute`). -/
namespace Respell

open Store

/-- From every state whose store extends `s`, the computation adds these entries. -/
def Brings {σ α : Type} (store : σ → Store) (s : Store) (act : StateM σ α) (new : Finset Entry) :
    Prop :=
  ∀ x, s.Extends (store x) → (store x).Adds (store (act x).2) new

namespace Brings

variable {σ α β : Type} {store : σ → Store} {s t : Store} {act : StateM σ α}
  {new more : Finset Entry}

theorem later (h : Brings store s act new) (e : s.Extends t) : Brings store t act new :=
  fun x ex => h x (e.trans ex)

theorem pure (a : α) : Brings store s (Pure.pure a) ∅ := fun x _ => .refl (store x)

theorem bind {next : α → StateM σ β} {mid : Store → α → Prop} (h : Brings store s act new)
    (yields : Yields store s act mid)
    (then_ : ∀ t a, s.Extends t → mid t a → Brings store t (next a) more) :
    Brings store s (act >>= next) (new ∪ more) := by
  intro x e
  have first := h x e
  exact first.trans (then_ _ _ (e.trans first.grows) (yields x e).2 (act x).2 (.refl _))

/-- What comes after adds nothing. -/
theorem quiet {next : α → StateM σ β} (h : Brings store s act new)
    (then_ : ∀ t a, s.Extends t → Brings store t (next a) ∅) :
    Brings store s (act >>= next) new := by
  intro x e
  have first := h x e
  have last := then_ _ (act x).1 (e.trans first.grows) (act x).2 (.refl _)
  exact Finset.union_empty new ▸ first.trans last

theorem congr {act' : StateM σ α} (same : ∀ x, s.Extends (store x) → act x = act' x)
    (h : Brings store s act' new) : Brings store s act new := by
  intro x e
  rw [same x e]
  exact h x e

theorem storing {act : Storing α} (h : Brings id s act new) :
    Brings Session.store s (Rewriting.storing act) new :=
  fun x e => h x.store e

end Brings

/-! ### Single steps -/

section Steps

variable {s : Store}

theorem brings_internType {n : TypeNode} {tree : Tree .type}
    (yields : Yields id s (internType n) fun t h => t.Denotes True tree h)
    (stands : ∀ type, tree ≠ .unknown type) : Brings id s (internType n) {.type tree} :=
  fun x e => adds_internType (yields x e).2 stands

theorem brings_internName {n : NameNode} {tree : Tree .name}
    (yields : Yields id s (internName n) fun t h => t.Denotes True tree h)
    (stands : ∀ name, tree ≠ .unknownName name) : Brings id s (internName n) {.name tree} :=
  fun x e => adds_internName (yields x e).2 stands

theorem brings_rebuilt {n : TypeNode} {tree : Tree .type}
    (yields : Yields id s (internType n) fun t h => t.Denotes True tree h)
    (stands : ∀ type, tree ≠ .unknown type) :
    Brings Session.store s (Rewriting.rebuilt n) {.type tree} :=
  (Brings.storing (brings_internType yields stands)).quiet fun _ _ _ => .pure _

theorem brings_emit (event : Event) : Brings Session.store s (Rewriting.emit event) ∅ :=
  fun x _ => .refl x.store

theorem brings_reintern {a : Atom} (covers : s.CoversAtom a) :
    Brings Session.store s (Rewriting.reintern a) {.text (s.text a)} := by
  intro x e
  rw [← text_extend e covers]
  exact adds_internText (x.store.text a) x.store

theorem brings_function {outer : Tree .optionalName} {tree : Tree .qualified}
    {trees : Tree .arguments} {name : Option NameId} {result : QualType}
    {arguments : List Argument} (attributes : FunctionAttributes)
    (dn : s.Denotes True outer name) (dr : s.Denotes True tree result)
    (da : s.Denotes True trees arguments) :
    Brings Session.store s
      (do
        let type ← Rewriting.storing
          (functionType { name, result, arguments, attributes })
        pure (⟨type, .none⟩ : QualType))
      {.type (.function outer tree trees attributes)} := by
  have yields := yields_function (f := ⟨name, result, arguments, attributes⟩) dn dr da
  have brings : Brings id s (functionType ⟨name, result, arguments, attributes⟩) _ :=
    fun x e => adds_functionType (yields x e).2 (by simp)
  exact brings.storing.quiet fun _ _ _ => .pure _

theorem brings_template {atom : Atom} {text : String} {tree : Tree .types} {args : List QualType}
    (known : s.texts.text? atom = some text) (d : s.Denotes True tree args) :
    Brings Session.store s (Rewriting.storing (templateName atom args))
      {.name (.template text tree)} :=
  .storing fun x e => adds_templateName (yields_template known d x e).2 (by simp)

theorem brings_selector {tree : Tree .names} {parts : List NameId} (hasArguments : Bool)
    (d : s.Denotes True tree parts) :
    Brings Session.store s (Rewriting.storing (selectorName parts hasArguments))
      {.name (.selector tree hasArguments)} :=
  .storing fun x e => adds_selectorName (yields_selector hasArguments d x e).2 (by simp)

end Steps

/-! ### Environments -/

/-- The handle and all that it mentions, at any depth, was given out by the store. -/
def Store.Gave (s : Store) (p : Part) (h : p.Handle) : Prop :=
  s.Denotes True (s.partTree p h) h

/-- The providers are binding maps and qualification, and all that they can answer with was given
out by the store. -/
structure Environment.Given (e : Environment) (s : Store) : Prop where
  providers : ∀ p ∈ e.providers, p = .qualifying ∨
    ∃ m : BindingMap, p = .ofBindings m ∧ ∀ b ∈ m.bindings, s.Gave .qualified b.2
  meanings : ∀ name scope, ∀ m ∈ e.context.lookup name scope, s.Gave .qualified m.type
  names : ∀ symbol, ∀ n ∈ e.context.qualifiedName symbol, s.Gave .name n

/-- The names that are built up to spell a name in full. -/
def nestedEntries (s : Store) (tree : Tree .name) : List NameId → Finset Entry
  | [] => ∅
  | member :: rest =>
    let next : Tree .name := .qualified tree (s.partTree .name member)
    {.name next} ∪ nestedEntries s next rest

namespace Environment

variable {e : Environment} {s t : Store} {q : Query}

theorem brings_qualifiedName {tree : Tree .name} {base : NameId} {rest : List NameId}
    (first : t.Denotes True tree base) (grows : s.Extends t)
    (names : ∀ n ∈ rest, s.Gave .name n) :
    Brings id t (Provider.qualifiedName base rest) (nestedEntries s tree rest) := by
  induction rest generalizing tree base t with
  | nil => exact .pure base
  | cons member rest ih =>
    have inner : t.Denotes True (s.partTree .name member) member :=
      (names member (by simp)).extend grows
    have yields := yields_qualified first inner
    refine (brings_internName yields (by simp)).bind yields fun u base' e d => ?_
    exact ih d (grows.trans e) fun n hn => names n (by simp [hn])

theorem exists_brings_qualifiedAnswer
    (names : ∀ symbol, ∀ n ∈ q.context.qualifiedName symbol, s.Gave .name n) :
    ∃ new, Brings id s (Provider.qualifiedAnswer q) new := by
  unfold Provider.qualifiedAnswer
  cases q.scope with
  | none => exact ⟨∅, .pure _⟩
  | some scope =>
    dsimp only
    cases q.context.lookup q.name scope with
    | nil => exact ⟨∅, .pure _⟩
    | cons meaning others =>
      dsimp only
      rcases full : meaning.symbol.map q.context.qualifiedName with _ | _ | ⟨base, rest⟩
      · exact ⟨∅, .pure _⟩
      · exact ⟨∅, .pure _⟩
      · obtain ⟨symbol, -, chain⟩ := Option.map_eq_some_iff.mp full
        have first := names symbol base (by simp [chain])
        have others := fun n (hn : n ∈ rest) => names symbol n (by simp [chain, hn])
        exact ⟨_, (brings_qualifiedName first (.refl s) others).bind
          (Provider.yields_qualifiedName first (.refl s) others) fun t name _ d =>
            (brings_internType (yields_named d) (by simp)).quiet fun _ _ _ => .pure _⟩

/-- A provider of a given environment answers a name with one tree or never, and adds the same
entries, whatever else is interned. -/
theorem Given.provider (given : e.Given s) {p : Provider} (mem : p ∈ e.providers)
    (name : NameId) :
    (∃ expected, Yields id s (p.answer (e.query name)) fun t type => Meets True expected t type) ∧
      ∃ new, Brings id s (p.answer (e.query name)) new := by
  rcases given.providers p mem with rfl | ⟨m, rfl, bound⟩
  · exact ⟨⟨_, Provider.yields_qualifiedAnswer (given.meanings _) given.names⟩,
      exists_brings_qualifiedAnswer given.names⟩
  · exact ⟨⟨_, Provider.answers_ofBindings bound _⟩, ∅, .pure _⟩

/-- Binding maps to types of the store, where there is no context to look names up in. -/
theorem Given.of_bindings (maps : List BindingMap)
    (bound : ∀ m ∈ maps, ∀ b ∈ m.bindings, s.Gave .qualified b.2) :
    ({ providers := maps.map .ofBindings } : Environment).Given s where
  providers p mem := by
    obtain ⟨m, hm, rfl⟩ := List.mem_map.mp mem
    exact .inr ⟨m, rfl, bound m hm⟩
  meanings _ _ _ mem := absurd mem List.not_mem_nil
  names _ _ mem := absurd mem List.not_mem_nil

theorem exists_brings_askInTurn {ps : List Provider}
    (each : ∀ p ∈ ps,
      (∃ expected, Yields id s (p.answer q) fun t type => Meets True expected t type) ∧
        ∃ new, Brings id s (p.answer q) new) :
    ∃ new, Brings id s (askInTurn q ps) new := by
  induction ps with
  | nil => exact ⟨∅, .pure _⟩
  | cons p rest ih =>
    obtain ⟨⟨expected, yields⟩, new, top⟩ := each p (by simp)
    obtain ⟨more, others⟩ := ih fun p hp => each p (by simp [hp])
    cases expected with
    | some tree =>
      refine ⟨new ∪ ∅, top.bind yields fun t type _ meets => ?_⟩
      rw [meets.1]
      exact .pure _
    | none =>
      refine ⟨new ∪ more, top.bind yields fun t type grows meets => ?_⟩
      have absent : type.isUndefined = true := meets
      rw [if_pos absent]
      exact (others.later grows).quiet fun _ _ _ => .pure _

theorem Given.answers (given : e.Given s) : e.Answers True s (e.answerTree s) :=
  answers_answerTree fun name => yields_askInTurn fun _ mem => (given.provider mem name).1

theorem Given.brings (given : e.Given s) (name : NameId) : ∃ new, Brings id s (e.ask name) new :=
  exists_brings_askInTurn fun _ mem => given.provider mem name

theorem Given.standard (given : e.Given s) : ∀ p ∈ e.providers, p.Standard :=
  fun p mem => (given.providers p mem).imp_right fun ⟨m, same, _⟩ => ⟨m, same⟩

end Environment

namespace Rewriting

/-! ### Whole parts -/

variable {e : Environment} {s : Store} {new : Finset Entry}

theorem brings_rewriteType {slot : Slot} {n : TypeNode} (node : s.typeNode? slot = some n)
    (h : Brings Session.store s (rewriteNode e s (.stored slot) n) new) :
    Brings Session.store s (rewriteType e (.stored slot)) new :=
  .congr (rewriteType_eq_rewriteNode node) h

theorem brings_rewriteName {name : NameId} {n : NameNode} (node : s.nameNode? name = some n)
    (h : Brings Session.store s (rewriteNameNode e s n) new) :
    Brings Session.store s (rewriteName e name) new :=
  .congr (rewriteName_eq_rewriteNameNode node) h

/-- What a rewrite adds depends on the part and the environment, and not on what else was
interned. -/
theorem exists_brings_rewritePart (given : e.Given s) (p : Part) (h : p.Handle)
    (settled : s.Settled p h) (grounded : (s.unfold p h).Grounded s) :
    ∃ new, Brings Session.store s (rewritePart e p h) new := by
  -- The trees that the parts of a node become are known beforehand, and with them what is rebuilt.
  have yields := fun (p : Part) (h : p.Handle) settled (grounded : (s.unfold p h).Grounded s) =>
    yields_rewritePart given.answers p h settled fun _ => grounded
  induction p, h using s.part_induction with
  | undefined | void | reserved =>
    simp only [rewritePart, rewriteType]
    exact ⟨∅, .pure _⟩
  | unknown slot node =>
    refine ⟨∅, .congr ?_ (.pure ⟨.stored slot, .none⟩)⟩
    intro x grows
    exact rewriteType_of_typeNode?_eq_none ((typeNode?_extend grows settled).trans node)
  | shapeless slot signature node shape =>
    refine ⟨∅, brings_rewriteType node ?_⟩
    simp only [rewriteNode, shape]
    exact .pure _
  | declared slot shape symbol node =>
    exact ⟨∅, brings_rewriteType node ((brings_emit _).quiet fun _ _ _ => .pure _)⟩
  | integer slot kind node =>
    exact ⟨_, brings_rewriteType node (brings_rebuilt (yields_integer kind) (by simp))⟩
  | float slot kind node =>
    exact ⟨_, brings_rewriteType node (brings_rebuilt (yields_float kind) (by simp))⟩
  | pointer slot element node ih =>
    rw [unfold_of_typeNode? node] at grounded
    have covers := covers_of_typeNode? node (r := element.rank) (by simp [Node.ranks])
    obtain ⟨_, inner⟩ := ih covers grounded
    exact ⟨_, brings_rewriteType node <| inner.bind (yields .qualified element covers grounded)
      fun t element' _ d => brings_rebuilt (yields_pointer d) (by simp)⟩
  | reference slot element node ih =>
    rw [unfold_of_typeNode? node] at grounded
    have covers := covers_of_typeNode? node (r := element.rank) (by simp [Node.ranks])
    obtain ⟨_, inner⟩ := ih covers grounded
    exact ⟨_, brings_rewriteType node <| inner.bind (yields .qualified element covers grounded)
      fun t element' _ d => brings_rebuilt (yields_reference d) (by simp)⟩
  | array slot element size node ih =>
    rw [unfold_of_typeNode? node] at grounded
    have covers := covers_of_typeNode? node (r := element.rank) (by simp [Node.ranks])
    obtain ⟨_, inner⟩ := ih covers grounded
    exact ⟨_, brings_rewriteType node <| inner.bind (yields .qualified element covers grounded)
      fun t element' _ d => brings_rebuilt (yields_array size d) (by simp)⟩
  | memberPointer slot owner element node ihOwner ihElement =>
    rw [unfold_of_typeNode? node] at grounded
    obtain ⟨owned, pointed⟩ := grounded
    have outer := covers_of_typeNode? node (r := owner.slot.rank) (by simp [Node.ranks])
    have covers := covers_of_typeNode? node (r := element.rank) (by simp [Node.ranks])
    obtain ⟨_, first⟩ := ihOwner outer owned
    obtain ⟨_, second⟩ := ihElement covers pointed
    exact ⟨_, brings_rewriteType node <| first.bind (yields .name owner outer owned)
      fun t owner' grows o => (second.later grows).bind
        ((yields .qualified element covers pointed).later grows)
        fun u element' grows' d => brings_rebuilt (yields_memberPointer (o.extend grows') d)
          (by simp)⟩
  | named slot name node ih =>
    rw [unfold_of_typeNode? node] at grounded
    have covers := covers_of_typeNode? node (r := name.slot.rank) (by simp [Node.ranks])
    obtain ⟨asked, ask⟩ := given.brings name
    obtain ⟨_, inner⟩ := ih covers grounded
    obtain ⟨rest, enter⟩ : ∃ new, Brings Session.store s
        (rewriteName e name >>= fun name => rebuilt (.named name)) new :=
      ⟨_, inner.bind (yields .name name covers grounded) fun t name' _ d =>
        brings_rebuilt (yields_named d) (by simp)⟩
    have replies := yields_storing (given.answers name)
    cases expected : e.answerTree s name with
    | some tree =>
      rw [expected] at replies
      refine ⟨asked ∪ ∅, brings_rewriteType node <| ask.storing.bind replies
        fun t reply _ meets => (brings_emit _).quiet fun _ _ _ => ?_⟩
      rw [meets.1]
      exact .pure _
    | none =>
      rw [expected] at replies
      refine ⟨asked ∪ (∅ ∪ rest), brings_rewriteType node <| ask.storing.bind replies
        fun t reply grows meets => (brings_emit _).bind (yields_emit _) fun u _ grows' _ => ?_⟩
      have absent : reply.type.isUndefined = true := meets
      rw [if_pos absent]
      exact enter.later (grows.trans grows')
  | function slot signature node f shape ihName ihResult ihArguments =>
    rw [unfold_of_typeNode? node] at grounded
    simp only [unfoldNode, shape] at grounded
    obtain ⟨named, returned, taken⟩ := grounded
    have name := covers_of_signature? shape (r := optionalRank f.name) (by simp [Node.ranks])
    have result := covers_of_signature? shape (r := f.result.rank) (by simp [Node.ranks])
    have arguments := settled_arguments shape
    obtain ⟨_, first⟩ := ihName name named
    obtain ⟨_, second⟩ := ihResult result returned
    obtain ⟨_, third⟩ := ihArguments arguments taken
    have act := first.bind (yields .optionalName f.name name named) fun t name' grows dn =>
      (second.later grows).bind ((yields .qualified f.result result returned).later grows)
        fun u result' grows' dr => (third.later (grows.trans grows')).bind
          ((yields .arguments f.arguments arguments taken).later (grows.trans grows'))
          fun v arguments' grows'' da => brings_function f.attributes
            (dn.extend (grows'.trans grows'')) (dr.extend grows'') da
    refine ⟨_, brings_rewriteType node (.congr (fun _ _ => ?_) act)⟩
    simp only [rewriteNode, shape]
    rfl
  | qual t ih =>
    rw [unfold_qual] at grounded
    obtain ⟨_, inner⟩ := ih settled grounded
    simp only [rewritePart, rewriteQual]
    refine ⟨_, inner.quiet fun _ _ _ => ?_⟩
    split <;> exact .pure _
  | unknownName n node =>
    refine ⟨∅, .congr ?_ (.pure n)⟩
    intro x grows
    exact rewriteName_of_nameNode?_eq_none ((nameNode?_extend grows settled).trans node)
  | identifier atom n node =>
    have covers := (fits_of_node? (node?_of_nameNode? node)).coversAtom (a := atom)
      (by simp [Node.atoms])
    exact ⟨_, brings_rewriteName node <| (brings_reintern covers).bind (yields_reintern covers)
      fun t atom' _ known => (brings_internName (yields_identifier known) (by simp)).storing⟩
  | destructor atom n node =>
    have covers := (fits_of_node? (node?_of_nameNode? node)).coversAtom (a := atom)
      (by simp [Node.atoms])
    exact ⟨_, brings_rewriteName node <| (brings_reintern covers).bind (yields_reintern covers)
      fun t atom' _ known => (brings_internName (yields_destructor known) (by simp)).storing⟩
  | qualified base member n node ihBase ihMember =>
    rw [unfold_of_nameNode? node] at grounded
    obtain ⟨outside, inside⟩ := grounded
    have outer := covers_of_nameNode? node (r := base.slot.rank) (by simp [Node.ranks])
    have inner := covers_of_nameNode? node (r := member.slot.rank) (by simp [Node.ranks])
    obtain ⟨_, first⟩ := ihBase outer outside
    obtain ⟨_, second⟩ := ihMember inner inside
    exact ⟨_, brings_rewriteName node <| first.bind (yields .name base outer outside)
      fun t base' grows o => (second.later grows).bind
        ((yields .name member inner inside).later grows) fun u member' grows' i =>
          (brings_internName (yields_qualified (o.extend grows') i) (by simp)).storing⟩
  | template atom args n node ih =>
    rw [unfold_of_nameNode? node] at grounded
    have fits := fits_of_node? (node?_of_nameNode? node)
    have covers := fits.coversAtom (a := atom) (by simp [Node.atoms])
    have list := settled_typeList (fits.covers (r := args.slot.rank) (by simp [Node.ranks]))
    obtain ⟨_, inner⟩ := ih list grounded.2.2
    exact ⟨_, brings_rewriteName node <| (brings_reintern covers).bind (yields_reintern covers)
      fun t atom' grows known => (inner.later grows).bind
        ((yields .types _ list grounded.2.2).later grows) fun u args' grows' d =>
          brings_template (grows'.texts known) d⟩
  | operator kind n node =>
    exact ⟨_, brings_rewriteName node (brings_internName (yields_operator kind) (by simp)).storing⟩
  | conversion target n node ih =>
    rw [unfold_of_nameNode? node] at grounded
    have covers := covers_of_nameNode? node (r := target.rank) (by simp [Node.ranks])
    obtain ⟨_, inner⟩ := ih covers grounded
    exact ⟨_, brings_rewriteName node <| inner.bind (yields .qualified target covers grounded)
      fun t target' _ d => (brings_internName (yields_conversion d) (by simp)).storing⟩
  | selector parts hasArguments n node ih =>
    rw [unfold_of_nameNode? node] at grounded
    have list := settled_nameList
      (covers_of_nameNode? node (r := parts.slot.rank) (by simp [Node.ranks]))
    obtain ⟨_, inner⟩ := ih list grounded.2
    exact ⟨_, brings_rewriteName node <| inner.bind (yields .names _ list grounded.2)
      fun t parts' _ d => brings_selector hasArguments d⟩
  | noName =>
    simp only [rewritePart, rewriteOptionalName]
    exact ⟨∅, .pure _⟩
  | justName n ih =>
    rw [unfold_justName] at grounded
    obtain ⟨_, inner⟩ := ih settled grounded
    simp only [rewritePart, rewriteOptionalName]
    exact ⟨_, inner.quiet fun _ _ _ => .pure _⟩
  | noTypes | noNames | noArguments => exact ⟨∅, .pure _⟩
  | consType first rest ihFirst ihRest =>
    rw [unfold_consType] at grounded
    have one := settled first (by simp)
    obtain ⟨_, head⟩ := ihFirst one grounded.1
    obtain ⟨_, tail⟩ := ihRest (fun q hq => settled q (by simp [hq])) grounded.2
    simp only [rewritePart, List.mapM_cons]
    exact ⟨_, head.bind (yields .qualified first one grounded.1) fun t first' grows _ =>
      (tail.later grows).quiet fun _ _ _ => .pure _⟩
  | consName first rest ihFirst ihRest =>
    rw [unfold_consName] at grounded
    have one := settled first (by simp)
    obtain ⟨_, head⟩ := ihFirst one grounded.1
    obtain ⟨_, tail⟩ := ihRest (fun n hn => settled n (by simp [hn])) grounded.2
    simp only [rewritePart, List.mapM_cons]
    exact ⟨_, head.bind (yields .name first one grounded.1) fun t first' grows _ =>
      (tail.later grows).quiet fun _ _ _ => .pure _⟩
  | consArgument a rest ihName ihType ihRest =>
    rw [unfold_consArgument] at grounded
    obtain ⟨named, typed, -, others⟩ := grounded
    have covers := (settled a (by simp)).1
    have name := covers.mono (Nat.le_max_left ..)
    have type := covers.mono (Nat.le_max_right ..)
    obtain ⟨_, first⟩ := ihName name named
    obtain ⟨_, second⟩ := ihType type typed
    obtain ⟨_, tail⟩ := ihRest (fun b hb => settled b (by simp [hb])) others
    simp only [rewritePart, List.mapM_cons, rewriteArgument, bind_assoc, pure_bind]
    exact ⟨_, first.bind (yields .optionalName a.name name named) fun t name' grows _ =>
      (second.later grows).bind ((yields .qualified a.type type typed).later grows)
        fun u type' grows' _ => (tail.later (grows.trans grows')).quiet fun _ _ _ => .pure _⟩

/-- Whatever was interned since, the rewrite of a part comes to the same tree, adds the same entries
and makes the same events. -/
theorem exists_outcome (given : e.Given s) {p : Part} {h : p.Handle} (gave : s.Gave p h) :
    ∃ tree new events, ∀ t, s.Extends t →
      t.Adds (rewritePart e p h ⟨t, #[]⟩).2.store new ∧
        (∀ u, (rewritePart e p h ⟨t, #[]⟩).2.store.Extends u →
          u.partTree p.rewritten (rewritePart e p h ⟨t, #[]⟩).1 = tree) ∧
        (rewritePart e p h ⟨t, #[]⟩).2.events.toList = events := by
  obtain ⟨new, brings⟩ := exists_brings_rewritePart given p h gave.settled (gave.grounded trivial)
  have yields := yields_rewritePart given.answers p h gave.settled fun _ => gave.grounded trivial
  refine ⟨(s.unfold p h).substitute (e.answerTree s), new,
    (rewritePart e p h ⟨s, #[]⟩).2.events.toList, fun t grows => ⟨brings ⟨t, #[]⟩ grows, ?_, ?_⟩⟩
  · intro u later
    exact ((yields ⟨t, #[]⟩ grows).2.extend later).reads
  · obtain ⟨events, there, here⟩ := events_rewritePart given.standard gave.settled
      (x := ⟨t, #[]⟩) (y := ⟨s, #[]⟩) grows (.refl s)
    rw [there, here]

end Rewriting

/-! ### Two rewrites -/

/-- A type or a name. -/
inductive Target
  | type (type : QualType)
  | name (name : NameId)

namespace Target

def Gave (s : Store) : Target → Prop
  | type t => s.Gave .qualified t
  | name n => s.Gave .name n

def tree (s : Store) : Target → Tree .qualified ⊕ Tree .name
  | type t => .inl (s.qualTree t)
  | name n => .inr (s.nameTree n)

def text (s : Store) (spell : SymbolId → Option String) : Target → String
  | type t => s.typeText spell t
  | name n => s.nameText spell n

def rewrite (e : Environment) : Target → Rewriting Target
  | type t => do
    let t ← Rewriting.rewriteQual e t
    pure (.type t)
  | name n => do
    let n ← Rewriting.rewriteName e n
    pure (.name n)

theorem text_eq_of_tree {s t : Store} {a b : Target} (same : a.tree s = b.tree t)
    (spell : SymbolId → Option String) : a.text s spell = b.text t spell := by
  cases a <;> cases b <;> simp only [tree, reduceCtorEq] at same
  · exact congrArg (fun tree : Tree .qualified => tree.print spell "") (Sum.inl.inj same)
  · exact congrArg (fun tree : Tree .name => tree.print spell) (Sum.inr.inj same)

end Target

/-- The full names that a context gives are made of names of the store. -/
def LookupContext.Settled (c : LookupContext) (s : Store) : Prop :=
  ∀ symbol, ∀ n ∈ c.qualifiedName symbol, s.Settled .name n

/-- Later stores of equal size spell declarations alike. -/
theorem LookupContext.spell_eq {c : LookupContext} {s u v : Store} (settled : c.Settled s)
    (hu : s.Extends u) (hv : s.Extends v) (size : u.typeCount = v.typeCount) :
    c.spell u = c.spell v := by
  obtain ⟨_ | r⟩ := c
  · rfl
  have depths : ∀ depth, r.spellTo u depth = r.spellTo v depth := by
    intro depth
    induction depth with
    | zero => rfl
    | succ depth ih =>
      funext symbol
      have names : ∀ n ∈ r.qualifiedName symbol, u.nameText (r.spellTo u depth) n =
          v.nameText (r.spellTo v depth) n := by
        intro n hn
        have there := settled symbol n hn
        have one : u.nameTree n = s.nameTree n := partTree_extend (p := .name) hu there
        have other : v.nameTree n = s.nameTree n := partTree_extend (p := .name) hv there
        rw [nameText, nameText, one, other, ih]
      rw [Resolver.spellTo, Resolver.spellTo]
      cases chain : r.qualifiedName symbol with
      | nil => rfl
      | cons first rest =>
        rw [chain] at names
        exact congrArg (some ∘ Text.joinPath) (List.map_congr_left names)
  funext symbol
  change r.spellTo u (u.typeCount + 1) symbol = r.spellTo v (v.typeCount + 1) symbol
  rw [size, depths]

/-- A type or a name to rewrite, and the environment to rewrite it under. -/
structure Task where
  environment : Environment
  target : Target

namespace Task

/-- Rewriting in a session of its own. -/
def run (task : Task) (s : Store) : Target × Session :=
  task.target.rewrite task.environment ⟨s, #[]⟩

/-- Every handle that the task mentions, at any depth, was given out by the store. -/
structure Given (task : Task) (s : Store) : Prop where
  environment : task.environment.Given s
  target : task.target.Gave s

/-- In a final store of each order, the results read and print the same. -/
structure Alike (s u v : Store) (a b : Target) : Prop where
  tree : a.tree u = b.tree v
  text : ∀ c : LookupContext, c.Settled s → a.text u (c.spell u) = b.text v (c.spell v)

/-- The store at the end of two tasks. -/
def finish (one other : Task) (s : Store) : Store := (other.run (one.run s).2.store).2.store

/-- It makes no difference to be seen which of the tasks runs first. -/
structure Commute (s : Store) (one other : Task) : Prop where
  first : Alike s (one.finish other s) (other.finish one s) (one.run s).1
    (one.run (other.run s).2.store).1
  second : Alike s (one.finish other s) (other.finish one s) (other.run (one.run s).2.store).1
    (other.run s).1
  firstDiagnostics :
    (one.run s).2.diagnostics = (one.run (other.run s).2.store).2.diagnostics
  secondDiagnostics :
    (other.run (one.run s).2.store).2.diagnostics = (other.run s).2.diagnostics
  typeCount : (one.finish other s).typeCount = (other.finish one s).typeCount
  nameCount : (one.finish other s).nameCount = (other.finish one s).nameCount
  textCount : (one.finish other s).textCount = (other.finish one s).textCount

variable {s : Store} {task one other : Task}

/-- Whatever was interned since, a task comes to the same tree, adds the same entries and makes the
same events. -/
theorem Given.run (given : task.Given s) : ∃ tree new events, ∀ t, s.Extends t →
    t.Adds (task.run t).2.store new ∧
      (∀ u, (task.run t).2.store.Extends u → (task.run t).1.tree u = tree) ∧
      (task.run t).2.events.toList = events := by
  obtain ⟨e, target⟩ := task
  obtain ⟨known, gave⟩ := given
  cases target with
  | type type =>
    obtain ⟨tree, new, events, outcome⟩ := Rewriting.exists_outcome known (p := .qualified) gave
    refine ⟨.inl tree, new, events, fun t grows => ?_⟩
    obtain ⟨adds, reads, occurred⟩ := outcome t grows
    exact ⟨adds, fun u later => congrArg Sum.inl (reads u later), occurred⟩
  | name name =>
    obtain ⟨tree, new, events, outcome⟩ := Rewriting.exists_outcome known (p := .name) gave
    refine ⟨.inr tree, new, events, fun t grows => ?_⟩
    obtain ⟨adds, reads, occurred⟩ := outcome t grows
    exact ⟨adds, fun u later => congrArg Sum.inr (reads u later), occurred⟩

theorem Alike.of_tree {u v : Store} {a b : Target} (hu : s.Extends u) (hv : s.Extends v)
    (size : u.typeCount = v.typeCount) (tree : a.tree u = b.tree v) : Alike s u v a b where
  tree := tree
  text c settled := by
    rw [c.spell_eq settled hu hv size]
    exact Target.text_eq_of_tree tree _

def pointed : TypeId × Store :=
  internType (.pointer ⟨.stored Rewriting.firstNamed.1, .none⟩) Rewriting.firstNamed.2

def twicePointed : TypeId × Store := internType (.pointer ⟨pointed.1, .none⟩) pointed.2

theorem gave_pointed : twicePointed.2.Gave .qualified ⟨pointed.1, .none⟩ ∧
    twicePointed.2.Gave .qualified ⟨twicePointed.1, .none⟩ := by
  have named : Rewriting.firstNamed.2.Gave .qualified ⟨.stored Rewriting.firstNamed.1, .none⟩ :=
    ⟨Rewriting.settled_firstNamed _, rfl, fun _ => Rewriting.grounded_firstNamed _⟩
  obtain ⟨-, pointer⟩ := yields_pointer named _ (.refl _)
  obtain ⟨grows, outer⟩ := yields_pointer (denotes_qual .none pointer) _ (.refl _)
  have inner := (denotes_qual .none pointer).extend grows
  have outer := denotes_qual .none outer
  exact ⟨⟨inner.settled, rfl, inner.grounded⟩, ⟨outer.settled, rfl, outer.grounded⟩⟩

def once : Task := ⟨Rewriting.voidForName, .type ⟨pointed.1, .none⟩⟩

def twice : Task := ⟨Rewriting.voidForName, .type ⟨twicePointed.1, .none⟩⟩

end Task

end Respell

import Respell.Proofs.Answers
import Respell.Proofs.Nesting

/-! Rewriting drafts. A draft mirrors a session while everything that is interned there fits: then
the interner of the draft gives out the handles that the store of the session gives out. Main
statement: on an interner that is a store's, and with sources whose answers are settled there, calls
that may nest deep enough do to the draft what the rewriting functions do to the session
(`nested_draft`). -/
namespace Respell

def Session.draft (x : Session) : Draft := ⟨x.store.toInterner, x.events⟩

namespace Sources

/-- Every handle that the sources answer with is one of the store's, or none that it gives out. -/
structure Settled (e : Sources) (s : Store) : Prop where
  bound : ∀ m, Source.bindings m ∈ e.stack → ∀ b ∈ m.bindings, s.Settled .qualified b.2
  meanings : ∀ name scope, ∀ m ∈ e.context.lookup name scope, s.Settled .qualified m.type
  names : ∀ symbol, ∀ n ∈ e.context.qualifiedName symbol, s.Settled .name n

theorem Settled.shipped {e : Sources} {s : Store} (settled : e.Settled s) :
    e.environment.Shipped s := by
  refine ⟨?_, settled.meanings, settled.names⟩
  intro p hp
  obtain ⟨source, mem, rfl⟩ := List.mem_map.mp hp
  cases source with
  | bindings m => exact .inr ⟨m, rfl, settled.bound m mem⟩
  | qualifying => exact .inl rfl

theorem Settled.later {e : Sources} {s t : Store} (settled : e.Settled s) (grows : s.Extends t) :
    e.Settled t where
  bound m mem b hb := (settled.bound m mem b hb).extend grows
  meanings name scope m hm := (settled.meanings name scope m hm).extend grows
  names symbol n hn := (settled.names symbol n hn).extend grows

end Sources

namespace Rewriting

open Store

variable {α β : Type} {s t : Store}

/-! ### Rules -/

/-- From `s` on, what the work does to a session the other work does to its draft, and the result is
one that is wanted. -/
def Mirrors (s : Store) (act : Limited Session α) (other : Limited Draft α)
    (post : Store → α → Prop) : Prop :=
  ∀ x a y, s.Extends x.store → act x = some (a, y) →
    other x.draft = some (a, y.draft) ∧ x.store.Extends y.store ∧ post y.store a

namespace Mirrors

variable {act : Limited Session α} {other : Limited Draft α} {post mid : Store → α → Prop}

theorem pure {a : α} (h : ∀ t, s.Extends t → post t a) : Mirrors s (pure a) (pure a) post := by
  intro x a y e run
  cases run
  exact ⟨rfl, .refl _, h _ e⟩

theorem bind {next : α → Limited Session β} {next' : α → Limited Draft β}
    {post : Store → β → Prop} (h : Mirrors s act other mid)
    (then_ : ∀ t a, s.Extends t → mid t a → Mirrors t (next a) (next' a) post) :
    Mirrors s (act >>= next) (other >>= next') post := by
  intro x b z e run
  cases first : act x with
  | none =>
    simp only [Bind.bind, StateT.bind, first, Option.bind] at run
    cases run
  | some result =>
    obtain ⟨a, y⟩ := result
    obtain ⟨mirrored, grows, reached⟩ := h x a y e first
    rw [bind_of_eq_some first] at run
    obtain ⟨mirrored', grows', reached'⟩ :=
      then_ y.store a (e.trans grows) reached y b z (.refl _) run
    rw [bind_of_eq_some mirrored]
    exact ⟨mirrored', grows.trans grows', reached'⟩

theorem map {post : Store → β → Prop} (f : α → β) (h : Mirrors s act other mid)
    (imp : ∀ t a, mid t a → post t (f a)) :
    Mirrors s (act >>= fun a => Pure.pure (f a)) (other >>= fun a => Pure.pure (f a)) post := by
  intro x b y e run
  cases first : act x with
  | none =>
    simp only [Bind.bind, StateT.bind, first, Option.bind] at run
    cases run
  | some result =>
    obtain ⟨mirrored, grows, reached⟩ := h x _ _ e first
    rw [bind_of_eq_some first] at run
    cases run
    rw [bind_of_eq_some mirrored]
    exact ⟨rfl, grows, imp _ _ reached⟩

theorem mapM {f : α → Limited Session β} {f' : α → Limited Draft β} {wanted : Store → β → Prop}
    {l : List α} (kept : ∀ t u b, t.Extends u → wanted t b → wanted u b)
    (each : ∀ a ∈ l, ∀ t, s.Extends t → Mirrors t (f a) (f' a) wanted) :
    Mirrors s (l.mapM f) (l.mapM f') fun t bs => ∀ b ∈ bs, wanted t b := by
  induction l generalizing s with
  | nil => exact .pure fun _ _ => by simp
  | cons a rest ih =>
    rw [List.mapM_cons, List.mapM_cons]
    refine (each a List.mem_cons_self s (.refl _)).bind fun t b grows one => ?_
    have later := ih fun c hc u e => each c (List.mem_cons_of_mem _ hc) u (grows.trans e)
    refine later.bind fun u bs grows' others => ?_
    refine .pure fun v grows'' c hc => ?_
    rcases List.mem_cons.mp hc with rfl | hc
    · exact kept t v _ (grows'.trans grows'') one
    · exact kept u v c grows'' (others c hc)

end Mirrors

/-! ### Single steps -/

theorem mirrors_internNode {n : Node} (fits : s.Fits n) :
    Mirrors s (unlimited (Registry.internNode n)) (unlimited (Registry.internNode n))
      fun t slot => t.Covers slot.rank := by
  intro x slot y e run
  have there := fits.extend e
  obtain ⟨given, grown⟩ := internNode_of_fits there
  cases run
  refine ⟨?_, extends_internNode _ n, covers_of_node? (node?_internNode there)⟩
  change some ((x.store.toInterner.internNode n).1,
    (⟨(x.store.toInterner.internNode n).2, x.events⟩ : Draft)) = _
  rw [← given, ← grown]
  rfl

theorem mirrors_emit (event : Event) :
    Mirrors s (unlimited (Registry.emit event)) (unlimited (Registry.emit event))
      fun _ _ => True := by
  intro x a y _ run
  cases run
  exact ⟨rfl, .refl _, trivial⟩

theorem mirrors_reintern (a : Atom) :
    Mirrors s (unlimited (Registry.reintern a)) (unlimited (Registry.reintern a))
      fun t b => t.CoversAtom b := by
  intro x b y _ run
  cases run
  exact ⟨rfl, extends_internText _ _, coversAtom_of_text? (text?_internText _ _)⟩

theorem mirrors_internName {n : NameNode} (fits : s.Fits (.name n)) :
    Mirrors s (unlimited (Registry.internName n)) (unlimited (Registry.internName n))
      fun t name => t.Settled .name name :=
  (mirrors_internNode fits).map NameId.mk fun _ _ covers => covers

theorem mirrors_rebuilt {n : TypeNode} (parts : ∀ r ∈ (Node.type n).ranks, s.Covers r) :
    Mirrors s (unlimited (Registry.rebuilt n)) (unlimited (Registry.rebuilt n))
      fun t type => t.Settled .qualified type :=
  (mirrors_internNode (fits_type parts)).map (fun slot => (⟨.stored slot, .none⟩ : QualType))
    fun _ _ covers => covers

/-! ### Answers -/

theorem mirrors_qualifiedName {base : NameId} {rest : List NameId}
    (first : s.Settled .name base) (others : ∀ n ∈ rest, s.Settled .name n) :
    Mirrors s (unlimited (storing (Provider.qualifiedName base rest)))
      (unlimited (Registry.qualifiedName base rest)) fun t name => t.Settled .name name := by
  induction rest generalizing s base with
  | nil => exact .pure fun _ grows => first.extend grows
  | cons member rest ih =>
    have fits : s.Fits (.name (.qualified base member)) :=
      fits_of_forall (by simp [Node.atoms]) fun r hr => by
        simp only [Node.ranks, List.mem_cons, List.not_mem_nil, or_false] at hr
        rcases hr with rfl | rfl
        · exact first
        · exact others member List.mem_cons_self
    exact (mirrors_internName fits).bind fun t name grows given =>
      ih given fun n hn => (others n (List.mem_cons_of_mem _ hn)).extend grows

theorem mirrors_qualifiedAnswer {q : Query}
    (meanings : ∀ scope, ∀ m ∈ q.context.lookup q.name scope, s.Settled .qualified m.type)
    (names : ∀ symbol, ∀ n ∈ q.context.qualifiedName symbol, s.Settled .name n) :
    Mirrors s (unlimited (storing (Provider.qualifiedAnswer q)))
      (unlimited (Registry.qualifiedAnswer q)) fun t type => t.Settled .qualified type := by
  unfold Provider.qualifiedAnswer Registry.qualifiedAnswer
  cases q.scope with
  | none => exact .pure fun _ _ => Nat.zero_le _
  | some scope =>
    dsimp only
    cases found : q.context.lookup q.name scope with
    | nil => exact .pure fun _ _ => Nat.zero_le _
    | cons meaning others =>
      dsimp only
      have own := meanings scope meaning (by simp [found])
      rcases full : meaning.symbol.map q.context.qualifiedName with _ | _ | ⟨base, rest⟩
      · exact .pure fun _ grows => own.extend grows
      · exact .pure fun _ grows => own.extend grows
      · obtain ⟨symbol, -, chain⟩ := Option.map_eq_some_iff.mp full
        have first := names symbol base (by simp [chain])
        have others := fun n (hn : n ∈ rest) => names symbol n (by simp [chain, hn])
        exact (mirrors_qualifiedName first others).bind fun t name _ given =>
          mirrors_rebuilt (by simpa [Node.ranks, Settled] using given)

theorem mirrors_answer {e : Sources} (settled : e.Settled s) {q : Query}
    (context : q.context = e.context) {source : Source} (mem : source ∈ e.stack) :
    Mirrors s (unlimited (storing (source.provider.answer q)))
      (unlimited (Registry.answer q source)) fun t type => t.Settled .qualified type := by
  cases source with
  | bindings m =>
    refine .pure fun t grows => ?_
    cases found : m.get? q.name with
    | none => exact Nat.zero_le _
    | some type =>
      obtain ⟨b, hb, rfl⟩ := Option.map_eq_some_iff.mp found
      have bound := settled.bound m mem b (List.mem_reverse.mp (List.mem_of_find?_eq_some hb))
      exact bound.extend grows
  | qualifying =>
    apply mirrors_qualifiedAnswer
    · rw [context]
      exact settled.meanings q.name
    · rw [context]
      exact settled.names

theorem mirrors_askInTurn {e : Sources} (settled : e.Settled s) {q : Query}
    (context : q.context = e.context) {stack : List Source}
    (part : ∀ source ∈ stack, source ∈ e.stack) :
    Mirrors s (unlimited (storing (Environment.askInTurn q (stack.map Source.provider))))
      (unlimited (Registry.askInTurn q stack)) fun t reply => t.Settled .qualified reply.type := by
  induction stack generalizing s with
  | nil => exact .pure fun _ _ => Nat.zero_le _
  | cons source rest ih =>
    have first := mirrors_answer settled context (part source List.mem_cons_self)
    change Mirrors s
      (unlimited (storing (source.provider.answer q)) >>= fun type =>
        unlimited (storing (if type.isUndefined then (do
          let reply ← Environment.askInTurn q (rest.map Source.provider)
          Pure.pure ⟨reply.type, reply.asked + 1⟩) else Pure.pure ⟨type, 1⟩ : Storing Reply)))
      (unlimited (Registry.answer q source) >>= fun type =>
        unlimited (if type.isUndefined then (do
          let reply ← Registry.askInTurn q rest
          Pure.pure ⟨reply.type, reply.asked + 1⟩) else Pure.pure ⟨type, 1⟩)) _
    refine first.bind fun t type grows given => ?_
    split
    · have others := ih (settled.later grows) fun other mem =>
        part other (List.mem_cons_of_mem _ mem)
      apply others.map fun reply => (⟨reply.type, reply.asked + 1⟩ : Reply)
      exact fun _ _ given => given
    · exact .pure fun _ grows' => given.extend grows'

/-! ### Calls -/

/-- The calls of a draft do what the calls of a session do, on handles that are settled. -/
structure Mirror (c : Calls Session) (d : Calls Draft) (s : Store) : Prop where
  ask : ∀ name t, s.Extends t → Mirrors t (unlimited (c.ask name)) (unlimited (d.ask name))
    fun u reply => u.Settled .qualified reply.type
  qual : ∀ type t, s.Extends t → t.Settled .qualified type →
    Mirrors t (c.qual type) (d.qual type) fun u type => u.Settled .qualified type
  name : ∀ name t, s.Extends t → t.Settled .name name →
    Mirrors t (c.name name) (d.name name) fun u name => u.Settled .name name

namespace Mirror

variable {c : Calls Session} {d : Calls Draft}

theorem optionalName (mirror : Mirror c d s) (e : s.Extends t) {name : Option NameId}
    (settled : t.Settled .optionalName name) :
    Mirrors t (c.optionalName name) (d.optionalName name)
      fun u name => u.Settled .optionalName name := by
  cases name with
  | none => exact .pure fun _ _ => Nat.zero_le _
  | some n => exact (mirror.name n t e settled).map some fun _ _ given => given

theorem argument (mirror : Mirror c d s) (e : s.Extends t) {a : Argument}
    (settled : t.Settled .arguments [a]) :
    Mirrors t (c.argument a) (d.argument a) fun u a => u.Settled .arguments [a] := by
  obtain ⟨covers, atoms⟩ := settled a List.mem_cons_self
  refine (mirror.optionalName e (covers.mono (Nat.le_max_left ..))).bind
    fun u name grows named => ?_
  have type := mirror.qual a.type u (e.trans grows)
    (Covers.extend (covers.mono (Nat.le_max_right ..)) grows)
  refine type.bind fun v type grows' typed => .pure fun w grows'' => ?_
  intro b hb
  rw [List.mem_singleton.mp hb]
  refine ⟨Nat.max_le.mpr ⟨?_, typed.extend grows''⟩, fun d hd => ?_⟩
  · exact named.extend (grows'.trans grows'')
  · exact (atoms d hd).extend (grows.trans (grows'.trans grows''))

theorem typeNode (mirror : Mirror c d s) (e : s.Extends t) {slot : Slot} {n : TypeNode}
    (node : t.typeNode? slot = some n) :
    Mirrors t (c.typeNode t.toInterner (.stored slot) n) (d.typeNode t.toInterner (.stored slot) n)
      fun u type => u.Settled .qualified type := by
  have part {k : Nat} (listed : k ∈ (Node.type n).ranks) : t.Covers k :=
    covers_of_typeNode? node listed
  have itself : t.Covers slot.rank := covers_of_node? (node?_of_typeNode? node)
  cases n with
  | integer | float => exact mirrors_rebuilt (by simp [Node.ranks])
  | pointer element | reference element | array element =>
    refine (mirror.qual element t e (part (by simp [Node.ranks]))).bind fun u element _ given => ?_
    exact mirrors_rebuilt (by simpa [Node.ranks, Settled] using given)
  | memberPointer owner element =>
    refine (mirror.name owner t e (part (by simp [Node.ranks]))).bind fun u owner grows outer => ?_
    have covers : t.Settled .qualified element := part (by simp [Node.ranks])
    refine (mirror.qual element u (e.trans grows) (covers.extend grows)).bind
      fun v element grows' inner => ?_
    have outer := outer.extend grows'
    exact mirrors_rebuilt (by simpa [Node.ranks, Settled] using ⟨outer, inner⟩)
  | named name =>
    refine (mirror.ask name t e).bind fun u reply grows given => ?_
    refine (mirrors_emit _).bind fun v _ grows' _ => ?_
    split
    · have later := grows.trans grows'
      have covers : t.Settled .name name := part (by simp [Node.ranks])
      refine (mirror.name name v (e.trans later) (covers.extend later)).bind
        fun w name _ given => ?_
      exact mirrors_rebuilt (by simpa [Node.ranks, Settled] using given)
    · exact .pure fun w grows'' => given.extend (grows'.trans grows'')
  | function signature =>
    simp only [Calls.typeNode]
    cases shape : t.signature? signature with
    | none => exact .pure fun u grows => itself.extend grows
    | some f =>
      have named : t.Settled .optionalName f.name :=
        covers_of_signature? shape (by simp [Node.ranks])
      have returned : t.Settled .qualified f.result :=
        covers_of_signature? shape (by simp [Node.ranks])
      refine (mirror.optionalName e named).bind fun u name grows dn => ?_
      refine (mirror.qual f.result u (e.trans grows) (returned.extend grows)).bind
        fun v result grows' dr => ?_
      have later := grows.trans grows'
      have each := fun a (ha : a ∈ f.arguments) w (grows : v.Extends w) =>
        mirror.argument ((e.trans later).trans grows) (a := a) <|
          Settled.extend (p := .arguments) (s := t) (h := [a])
            (fun b hb => settled_arguments shape b (List.mem_singleton.mp hb ▸ ha))
            (later.trans grows)
      refine (Mirrors.mapM (fun _ _ _ grows h => h.extend grows) each).bind
        fun w arguments grows'' da => ?_
      have da : w.Settled .arguments arguments := fun a ha => da a ha a List.mem_cons_self
      refine (mirrors_internNode (fits_signature (f := ⟨name, result, arguments, f.attributes⟩)
        (dn.extend (grows'.trans grows'')) (dr.extend grows'') da)).bind fun x slot _ given => ?_
      exact mirrors_rebuilt (by simpa [Node.ranks, Settled] using given)
  | declared shape symbol =>
    exact (mirrors_emit _).bind fun u _ grows _ =>
      .pure fun v grows' => itself.extend (grows.trans grows')

theorem nameNode (mirror : Mirror c d s) (e : s.Extends t) {name : NameId} {n : NameNode}
    (node : t.nameNode? name = some n) :
    Mirrors t (c.nameNode t.toInterner n) (d.nameNode t.toInterner n)
      fun u name => u.Settled .name name := by
  have part {k : Nat} (listed : k ∈ (Node.name n).ranks) : t.Covers k :=
    covers_of_nameNode? node listed
  have atom {u : Store} {a : Atom} (given : u.CoversAtom a) : ∀ b ∈ [a], u.CoversAtom b :=
    fun b hb => List.mem_singleton.mp hb ▸ given
  cases n with
  | operator => exact mirrors_internName (fits_of_node? (node?_of_nameNode? node))
  | identifier text | destructor text =>
    refine (mirrors_reintern text).bind fun u text _ given => ?_
    exact mirrors_internName (fits_of_forall (atom given) (by simp [Node.ranks]))
  | qualified base member =>
    refine (mirror.name base t e (part (by simp [Node.ranks]))).bind fun u base grows outer => ?_
    have covers : t.Settled .name member := part (by simp [Node.ranks])
    refine (mirror.name member u (e.trans grows) (covers.extend grows)).bind
      fun v member grows' inner => ?_
    have outer := outer.extend grows'
    exact mirrors_internName (fits_of_forall (by simp [Node.atoms])
      (by simpa [Node.ranks, Settled] using ⟨outer, inner⟩))
  | template identifier args =>
    refine (mirrors_reintern identifier).bind fun u identifier grows text => ?_
    have types : t.Settled .types (t.typeList args) :=
      settled_typeList (part (by simp [Node.ranks]))
    have each := fun a (ha : a ∈ t.typeList args) v (grows' : u.Extends v) =>
      mirror.qual a v (e.trans (grows.trans grows'))
        (Covers.extend (types a ha) (grows.trans grows'))
    refine (Mirrors.mapM (fun _ _ _ grows h => h.extend grows) each).bind
      fun v args grows' given => ?_
    refine (mirrors_internNode (fits_typeList given)).bind fun w slot grows'' list => ?_
    exact mirrors_internName (fits_of_forall (atom (text.extend (grows'.trans grows'')))
      (by simpa [Node.ranks] using list))
  | conversion target =>
    refine (mirror.qual target t e (part (by simp [Node.ranks]))).bind fun u target _ given => ?_
    exact mirrors_internName (fits_of_forall (by simp [Node.atoms])
      (by simpa [Node.ranks, Settled] using given))
  | selector parts hasArguments =>
    have names : t.Settled .names (t.nameList parts) :=
      settled_nameList (part (by simp [Node.ranks]))
    have each := fun a (ha : a ∈ t.nameList parts) u (grows : t.Extends u) =>
      mirror.name a u (e.trans grows) (Covers.extend (names a ha) grows)
    refine (Mirrors.mapM (fun _ _ _ grows h => h.extend grows) each).bind
      fun u parts grows given => ?_
    refine (mirrors_internNode (fits_nameList given)).bind fun v slot _ list => ?_
    exact mirrors_internName (fits_of_forall (by simp [Node.atoms])
      (by simpa [Node.ranks] using list))

theorem enterType (mirror : Mirror c d s) (e : s.Extends t) {type : TypeId}
    (settled : t.Settled .type type) :
    Mirrors t (c.enterType type) (d.enterType type) fun u type => u.Settled .qualified type := by
  cases type with
  | undefined | void | reserved => exact .pure fun _ _ => Nat.zero_le _
  | stored slot =>
    intro x result y grows run
    cases node : x.store.typeNode? slot with
    | none =>
      rw [c.enterType_of_typeNode?_eq_none node] at run
      cases run
      rw [d.enterType_of_typeNode?_eq_none (x := x.draft) node]
      exact ⟨rfl, .refl _, settled.extend grows⟩
    | some n =>
      rw [c.enterType_of_typeNode? node] at run
      rw [d.enterType_of_typeNode? (x := x.draft) node]
      exact mirror.typeNode (e.trans grows) node x result y (.refl _) run

theorem enterQual (mirror : Mirror c d s) (e : s.Extends t) {type : QualType}
    (settled : t.Settled .qualified type) :
    Mirrors t (c.enterQual type) (d.enterQual type) fun u type => u.Settled .qualified type := by
  refine (mirror.enterType e settled).bind fun u rewritten _ given => ?_
  split
  · exact .pure fun _ _ => Nat.zero_le _
  · exact .pure fun _ grows => given.extend grows

theorem enterName (mirror : Mirror c d s) (e : s.Extends t) {name : NameId}
    (settled : t.Settled .name name) :
    Mirrors t (c.enterName name) (d.enterName name) fun u name => u.Settled .name name := by
  intro x result y grows run
  cases node : x.store.nameNode? name with
  | none =>
    rw [c.enterName_of_nameNode?_eq_none node] at run
    cases run
    rw [d.enterName_of_nameNode?_eq_none (x := x.draft) node]
    exact ⟨rfl, .refl _, settled.extend grows⟩
  | some n =>
    rw [c.enterName_of_nameNode? node] at run
    rw [d.enterName_of_nameNode? (x := x.draft) node]
    exact mirror.nameNode (e.trans grows) node x result y (.refl _) run

end Mirror

theorem mirror_nested {e : Sources} (settled : e.Settled s) (depth : Nat) :
    Mirror (nested e.environment depth) (Registry.nested e.ask depth) s := by
  have ask (name : NameId) (t : Store) (grows : s.Extends t) :=
    mirrors_askInTurn (q := e.environment.query name) (settled.later grows) rfl fun _ mem => mem
  induction depth with
  | zero => exact ⟨ask, fun _ _ _ _ _ _ _ _ run => (nomatch run),
      fun _ _ _ _ _ _ _ _ run => (nomatch run)⟩
  | succ depth ih =>
    exact ⟨ask, fun _ _ grows given => ih.enterQual grows given,
      fun _ _ grows given => ih.enterName grows given⟩

theorem enterQual_of_typeNode?_eq_none (d : Calls Draft) {x : Draft} {slot : Slot}
    (node : x.interner.typeNode? slot = none) (qualifiers : Qualifiers) :
    d.enterQual ⟨.stored slot, qualifiers⟩ x = some (⟨.stored slot, qualifiers⟩, x) := by
  rw [Calls.enterQual, bind_of_eq_some (d.enterType_of_typeNode?_eq_none node)]
  simp only [QualType.qualify, Qualifiers.none_union]
  rfl

/-- On an interner that is a store's, with sources whose answers are settled there, calls that may
nest as deep as there are entries end, and they do to the draft what the rewriting functions do to
the session. -/
theorem nested_draft {e : Sources} {x : Session} (settled : e.Settled x.store) {depth : Nat}
    (deep : x.store.nodes.size < depth) :
    (∀ type, (Registry.nested e.ask depth).qual type x.draft =
      some ((rewriteQual e.environment type x).1, (rewriteQual e.environment type x).2.draft)) ∧
    ∀ name, (Registry.nested e.ask depth).name name x.draft =
      some ((rewriteName e.environment name x).1, (rewriteName e.environment name x).2.draft) := by
  obtain ⟨types, names⟩ := nested_eq e.environment deep
  have mirror := mirror_nested settled depth
  obtain ⟨depth, rfl⟩ : ∃ k, depth = k + 1 := Nat.exists_eq_succ_of_ne_zero (by omega)
  constructor
  · intro type
    rcases settled_or_typeNode?_eq_none x.store type.type with given | ⟨slot, stored, node⟩
    · exact (mirror.qual type _ (.refl _) given x _ _ (.refl _) (types type)).1
    · obtain ⟨type, qualifiers⟩ := type
      subst stored
      rw [rewriteQual_of_typeNode?_eq_none node]
      exact enterQual_of_typeNode?_eq_none _ node qualifiers
  · intro name
    rcases settled_or_nameNode?_eq_none x.store name with given | node
    · exact (mirror.name name _ (.refl _) given x _ _ (.refl _) (names name)).1
    · rw [rewriteName_of_nameNode?_eq_none node]
      exact Calls.enterName_of_nameNode?_eq_none _ node

end Rewriting
end Respell

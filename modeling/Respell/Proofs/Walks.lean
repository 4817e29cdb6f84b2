import Respell.Proofs.Providers

/-! What a rewrite does in order. A walk goes depth-first and from left to right through the parts
of types and names, once for each occurrence. It asks for the name of a named type and enters the
type only when there is no answer; it passes a type of an opaque shape by. Main statements: the
replies determine the walk (`Walk.map_eq`), and every rewrite makes the events of the walk from its
handle, with what its environment replies (`rewrite_walks`). With the providers that come with the
program the events do not depend on the store (`events_rewritePart`). -/
namespace Respell

/-- A type or a name that can be come to. The qualifiers of a position are not looked at. -/
inductive Piece
  | type (type : TypeId)
  | name (name : NameId)
  deriving DecidableEq, Repr

/-- The types and names of a part, from left to right. -/
def Part.pieces : (p : Part) → p.Handle → List Piece
  | .type, t => [.type t]
  | .qualified, t => [.type t.type]
  | .name, n => [.name n]
  | .optionalName, n => (Option.toList n).map .name
  | .types, ts => List.map (fun t : QualType => .type t.type) ts
  | .names, ns => List.map .name ns
  | .arguments, as =>
    List.flatMap (fun a : Argument => a.name.toList.map .name ++ [.type a.type.type]) as

/-- Where a walk does not simply go on to the parts. -/
inductive Stop
  | ask (name : NameId)
  | pass (type : TypeId) (shape : OpaqueShape)
  deriving DecidableEq, Repr

namespace Store

def nodeParts (s : Store) : TypeNode → List Piece
  | .integer _ | .float _ | .declared _ _ => []
  | .pointer element | .reference element | .array element _ => [.type element.type]
  | .memberPointer owner element => [.name owner, .type element.type]
  | .named name => [.name name]
  | .function signature =>
    match s.signature? signature with
    | none => []
    | some f =>
      Part.pieces .optionalName f.name ++ .type f.result.type :: Part.pieces .arguments f.arguments

def nameParts (s : Store) : NameNode → List Piece
  | .identifier _ | .destructor _ | .operator _ => []
  | .qualified base member => [.name base, .name member]
  | .template _ args => Part.pieces .types (s.typeList args)
  | .conversion target => [.type target.type]
  | .selector parts _ => Part.pieces .names (s.nameList parts)

/-- The parts of a type or a name, from left to right. What the store knows nothing of has none. -/
def parts (s : Store) : Piece → List Piece
  | .type (.stored slot) => ((s.typeNode? slot).map s.nodeParts).getD []
  | .type _ => []
  | .name n => ((s.nameNode? n).map s.nameParts).getD []

def stop? (s : Store) : Piece → Option Stop
  | .type (.stored slot) =>
    match s.typeNode? slot with
    | some (.named name) => some (.ask name)
    | some (.declared shape _) => some (.pass (.stored slot) shape)
    | _ => none
  | _ => none

end Store

inductive Visit
  | asked (name : NameId) (reply : Reply)
  | passed (type : TypeId) (shape : OpaqueShape)
  deriving DecidableEq, Repr

def Visit.event : Visit → Event
  | asked name reply => .query name reply.asked
  | passed type shape => .unsupported type shape

/-- A walk through pieces makes these visits. What is under an answered type is not walked
through. -/
inductive Walk (s : Store) : List Piece → List Visit → Prop
  | done : Walk s [] []
  | through {piece : Piece} {others : List Piece} {visits : List Visit}
      (silent : s.stop? piece = none) (onward : Walk s (s.parts piece ++ others) visits) :
      Walk s (piece :: others) visits
  | passed {piece : Piece} {type : TypeId} {shape : OpaqueShape} {others : List Piece}
      {visits : List Visit} (stop : s.stop? piece = some (.pass type shape))
      (onward : Walk s others visits) :
      Walk s (piece :: others) (.passed type shape :: visits)
  | answered {piece : Piece} {name : NameId} {reply : Reply} {others : List Piece}
      {visits : List Visit} (stop : s.stop? piece = some (.ask name))
      (defined : reply.type.isUndefined = false) (onward : Walk s others visits) :
      Walk s (piece :: others) (.asked name reply :: visits)
  | entered {piece : Piece} {name : NameId} {reply : Reply} {others : List Piece}
      {visits : List Visit} (stop : s.stop? piece = some (.ask name))
      (undefined : reply.type.isUndefined = true)
      (onward : Walk s (s.parts piece ++ others) visits) :
      Walk s (piece :: others) (.asked name reply :: visits)

/-- The replies to what was asked are those of the environment, one after the other, from a store on
that only grows. -/
inductive Answered (e : Environment) : Store → List Visit → Store → Prop
  | done {a b : Store} (grows : a.Extends b) : Answered e a [] b
  | passed {a b : Store} {type : TypeId} {shape : OpaqueShape} {visits : List Visit}
      (onward : Answered e a visits b) : Answered e a (.passed type shape :: visits) b
  | asked {a now b : Store} {name : NameId} {visits : List Visit} (grows : a.Extends now)
      (onward : Answered e (e.ask name now).2 visits b) :
      Answered e a (.asked name (e.ask name now).1 :: visits) b

variable {e : Environment} {s a b c : Store}

namespace Walk

theorem append {first second : List Piece} {visits later : List Visit} (h : Walk s first visits)
    (h' : Walk s second later) : Walk s (first ++ second) (visits ++ later) := by
  induction h with
  | done => exact h'
  | through silent _ ih =>
    rw [List.append_assoc] at ih
    exact .through silent ih
  | passed stop _ ih => exact .passed stop ih
  | answered stop defined _ ih => exact .answered stop defined ih
  | entered stop undefined _ ih =>
    rw [List.append_assoc] at ih
    exact .entered stop undefined ih

/-- The replies determine the walk: when the replies to each name agree in whether they answer, and
in what is seen of them, the same is seen of both walks. -/
theorem map_eq {α : Type} {seen : Visit → α} {pieces : List Piece} {visits visits' : List Visit}
    (h : Walk s pieces visits) (h' : Walk s pieces visits')
    (agree : ∀ name r r', .asked name r ∈ visits → .asked name r' ∈ visits' →
      r.type.isUndefined = r'.type.isUndefined ∧ seen (.asked name r) = seen (.asked name r')) :
    visits.map seen = visits'.map seen := by
  induction h generalizing visits' with
  | done =>
    cases h'
    rfl
  | through silent _ ih =>
    cases h' with
    | through _ onward => exact ih onward agree
    | passed stop | answered stop | entered stop => cases silent.symm.trans stop
  | passed stop _ ih =>
    cases h' with
    | through silent => cases silent.symm.trans stop
    | passed stop' onward =>
      cases stop.symm.trans stop'
      have later := ih onward fun name r r' hr hr' => agree name r r' (.tail _ hr) (.tail _ hr')
      rw [List.map_cons, List.map_cons, later]
    | answered stop' | entered stop' => cases stop.symm.trans stop'
  | answered stop defined _ ih =>
    cases h' with
    | through silent => cases silent.symm.trans stop
    | passed stop' => cases stop.symm.trans stop'
    | answered stop' _ onward =>
      cases stop.symm.trans stop'
      have first := (agree _ _ _ (.head _) (.head _)).2
      have later := ih onward fun name r r' hr hr' => agree name r r' (.tail _ hr) (.tail _ hr')
      rw [List.map_cons, List.map_cons, first, later]
    | entered stop' undefined =>
      cases stop.symm.trans stop'
      have same := (agree _ _ _ (.head _) (.head _)).1
      cases defined.symm.trans (same.trans undefined)
  | entered stop undefined _ ih =>
    cases h' with
    | through silent => cases silent.symm.trans stop
    | passed stop' => cases stop.symm.trans stop'
    | answered stop' defined =>
      cases stop.symm.trans stop'
      have same := (agree _ _ _ (.head _) (.head _)).1
      cases defined.symm.trans (same.symm.trans undefined)
    | entered stop' _ onward =>
      cases stop.symm.trans stop'
      have first := (agree _ _ _ (.head _) (.head _)).2
      have later := ih onward fun name r r' hr hr' => agree name r r' (.tail _ hr) (.tail _ hr')
      rw [List.map_cons, List.map_cons, first, later]

end Walk

namespace Answered

variable {visits later : List Visit}

theorem grows (h : Answered e a visits b) : a.Extends b := by
  induction h with
  | done grows => exact grows
  | passed _ ih => exact ih
  | asked grows _ ih => exact (grows.trans (Environment.extends_ask e _ _)).trans ih

theorem earlier (h : Answered e b visits c) (grows : a.Extends b) : Answered e a visits c := by
  induction h with
  | done grows' => exact .done (grows.trans grows')
  | passed _ ih => exact .passed (ih grows)
  | asked grows' onward => exact .asked (grows.trans grows') onward

theorem append (h : Answered e a visits b) (h' : Answered e b later c) :
    Answered e a (visits ++ later) c := by
  induction h with
  | done grows => exact h'.earlier grows
  | passed _ ih => exact .passed (ih h')
  | asked grows _ ih => exact .asked grows (ih h')

theorem exists_reply (h : Answered e a visits b) {name : NameId} {reply : Reply}
    (mem : .asked name reply ∈ visits) : ∃ now, reply = (e.ask name now).1 := by
  induction h with
  | done => cases mem
  | passed _ ih =>
    cases mem with
    | tail _ mem => exact ih mem
  | asked _ _ ih =>
    cases mem with
    | head => exact ⟨_, rfl⟩
    | tail _ mem => exact ih mem

end Answered

/-- Between the sessions, the visits of a walk through the pieces were made, and nothing else was to
be seen. -/
def Walked (e : Environment) (s : Store) (pieces : List Piece) (x y : Session) : Prop :=
  ∃ visits, Walk s pieces visits ∧ Answered e x.store visits y.store ∧
    y.events.toList = x.events.toList ++ visits.map Visit.event

/-- Where the replies do not depend on the store, neither do the events. -/
theorem Walked.events_eq {pieces : List Piece} {x y x' y' : Session} (steady : e.Steady)
    (walked : Walked e s pieces x y) (walked' : Walked e s pieces x' y') :
    ∃ events, y.events.toList = x.events.toList ++ events ∧
      y'.events.toList = x'.events.toList ++ events := by
  obtain ⟨visits, walk, answered, events⟩ := walked
  obtain ⟨visits', walk', answered', events'⟩ := walked'
  have same : visits.map Visit.event = visits'.map Visit.event := by
    refine walk.map_eq walk' fun name r r' hr hr' => ?_
    obtain ⟨now, rfl⟩ := answered.exists_reply hr
    obtain ⟨now', rfl⟩ := answered'.exists_reply hr'
    obtain ⟨defined, asked⟩ := steady name now now'
    exact ⟨defined, congrArg (Event.query name) asked⟩
  exact ⟨_, events, same ▸ events'⟩

/-- From every session whose store extends `s`, the computation walks through the pieces. -/
def Walks (e : Environment) (s : Store) (pieces : List Piece) {α : Type} (act : Rewriting α) :
    Prop :=
  ∀ x : Session, s.Extends x.store → Walked e s pieces x (act x).2

namespace Walks

variable {α β : Type} {act : Rewriting α} {pieces others : List Piece}

theorem pure (value : α) : Walks e s [] (pure value) :=
  fun _ _ => ⟨[], .done, .done (.refl _), (List.append_nil _).symm⟩

theorem storing {act : Storing α} (grows : ∀ t : Store, t.Extends (act t).2) :
    Walks e s [] (Rewriting.storing act) :=
  fun x _ => ⟨[], .done, .done (grows x.store), (List.append_nil _).symm⟩

theorem bind {next : α → Rewriting β} (h : Walks e s pieces act)
    (then_ : ∀ value, Walks e s others (next value)) :
    Walks e s (pieces ++ others) (act >>= next) := by
  intro x grows
  obtain ⟨visits, walk, answered, events⟩ := h x grows
  obtain ⟨visits', walk', answered', events'⟩ :=
    then_ (act x).1 (act x).2 (grows.trans answered.grows)
  refine ⟨visits ++ visits', walk.append walk', answered.append answered', ?_⟩
  change ((next (act x).1) (act x).2).2.events.toList = _
  rw [events', events, List.map_append, List.append_assoc]

/-- What comes after is not to be seen. -/
theorem quiet {next : α → Rewriting β} (h : Walks e s pieces act)
    (then_ : ∀ value, Walks e s [] (next value)) : Walks e s pieces (act >>= next) :=
  List.append_nil pieces ▸ h.bind then_

theorem congr {act' : Rewriting α} (same : ∀ x, s.Extends x.store → act x = act' x)
    (h : Walks e s pieces act') : Walks e s pieces act := by
  intro x grows
  rw [same x grows]
  exact h x grows

theorem through {piece : Piece} (silent : s.stop? piece = none)
    (h : Walks e s (s.parts piece) act) : Walks e s [piece] act := by
  intro x grows
  obtain ⟨visits, walk, rest⟩ := h x grows
  refine ⟨visits, .through silent ?_, rest⟩
  rwa [List.append_nil]

end Walks

namespace Store

theorem parts_of_typeNode? {slot : Slot} {n : TypeNode} (h : s.typeNode? slot = some n) :
    s.parts (.type (.stored slot)) = s.nodeParts n := by
  simp only [parts, h, Option.map_some, Option.getD_some]

theorem parts_of_nameNode? {name : NameId} {n : NameNode} (h : s.nameNode? name = some n) :
    s.parts (.name name) = s.nameParts n := by
  simp only [parts, h, Option.map_some, Option.getD_some]

end Store

namespace Rewriting

open Store

/-! ### Steps -/

theorem walks_rebuilt (n : TypeNode) : Walks e s [] (rebuilt n) :=
  (Walks.storing fun t => extends_internType n t).quiet fun _ => .pure _

theorem walks_internName (n : NameNode) : Walks e s [] (storing (internName n)) :=
  .storing fun t => extends_internName n t

theorem walks_reintern (atom : Atom) : Walks e s [] (reintern atom) :=
  fun x _ => ⟨[], .done, .done (extends_internText _ x.store), (List.append_nil _).symm⟩

/-- A type that is not asked for and not passed by is walked through. -/
theorem walks_rewriteType {slot : Slot} {n : TypeNode} (node : s.typeNode? slot = some n)
    (silent : s.stop? (.type (.stored slot)) = none)
    (h : Walks e s (s.nodeParts n) (rewriteNode e s (.stored slot) n)) :
    Walks e s [.type (.stored slot)] (rewriteType e (.stored slot)) := by
  apply Walks.through silent
  rw [parts_of_typeNode? node]
  exact .congr (rewriteType_eq_rewriteNode node) h

theorem walks_rewriteName {name : NameId} {n : NameNode} (node : s.nameNode? name = some n)
    (h : Walks e s (s.nameParts n) (rewriteNameNode e s n)) :
    Walks e s [.name name] (rewriteName e name) := by
  apply Walks.through rfl
  rw [parts_of_nameNode? node]
  exact .congr (rewriteName_eq_rewriteNameNode node) h

theorem walks_declared {slot : Slot} {shape : OpaqueShape} {symbol : SymbolId}
    (node : s.typeNode? slot = some (.declared shape symbol)) :
    Walks e s [.type (.stored slot)] (rewriteType e (.stored slot)) := by
  have stop : s.stop? (.type (.stored slot)) = some (.pass (.stored slot) shape) := by
    simp only [stop?, node]
  intro x grows
  have there := typeNode?_of_node? (grows.nodes (node?_of_typeNode? node))
  refine ⟨[.passed (.stored slot) shape], .passed stop .done, ?_⟩
  rw [rewriteType_of_typeNode? there]
  exact ⟨.passed (.done (.refl _)), Array.toList_push ..⟩

/-- The environment is asked first, and the name is rewritten only when it has no answer. -/
theorem walks_named {slot : Slot} {name : NameId} (node : s.typeNode? slot = some (.named name))
    (h : Walks e s [.name name] (rewriteName e name)) :
    Walks e s [.type (.stored slot)] (rewriteType e (.stored slot)) := by
  have stop : s.stop? (.type (.stored slot)) = some (.ask name) := by simp only [stop?, node]
  have inside : s.parts (.type (.stored slot)) = [.name name] := parts_of_typeNode? node
  have enter : Walks e s [.name name] (do
      let name ← rewriteName e name
      rebuilt (.named name)) := h.quiet fun name => walks_rebuilt (.named name)
  intro x grows
  have there := typeNode?_of_node? (grows.nodes (node?_of_typeNode? node))
  rw [rewriteType_of_typeNode? there]
  have asked := Environment.extends_ask e name x.store
  let y : Session := ⟨(e.ask name x.store).2,
    x.events.push (.query name (e.ask name x.store).1.asked)⟩
  change Walked e s _ x ((if (e.ask name x.store).1.type.isUndefined then (do
    let name ← rewriteName e name
    rebuilt (.named name)) else Pure.pure (e.ask name x.store).1.type : Rewriting QualType) y).2
  cases defined : (e.ask name x.store).1.type.isUndefined with
  | false =>
    refine ⟨_, .answered stop defined .done, .asked (.refl _) (.done (.refl _)), ?_⟩
    exact Array.toList_push ..
  | true =>
    obtain ⟨visits, walk, answered, events⟩ := enter y (grows.trans asked)
    refine ⟨_, .entered stop defined ?_, .asked (.refl _) answered, ?_⟩
    · rwa [inside, List.append_nil]
    · rw [if_pos rfl, events]
      simp [y, Visit.event]

/-! ### Whole parts -/

theorem walks_rewritePart (p : Part) (h : p.Handle) (settled : s.Settled p h) :
    Walks e s (p.pieces h) (rewritePart e p h) := by
  -- Each case performs the walks through its parts in the order in which a node lists them.
  induction p, h using s.part_induction with
  | undefined | void | reserved =>
    refine .through rfl ?_
    simp only [rewritePart, rewriteType]
    exact .pure _
  | unknown slot node =>
    refine .through (by simp only [stop?, node]) ?_
    have none : s.parts (.type (.stored slot)) = [] := by simp [parts, node]
    rw [none]
    refine .congr ?_ (.pure ⟨.stored slot, .none⟩)
    intro x grows
    exact rewriteType_of_typeNode?_eq_none ((typeNode?_extend grows settled).trans node)
  | integer slot kind node =>
    exact walks_rewriteType node (by simp only [stop?, node]) (walks_rebuilt (.integer kind))
  | float slot kind node =>
    exact walks_rewriteType node (by simp only [stop?, node]) (walks_rebuilt (.float kind))
  | declared slot shape symbol node => exact walks_declared node
  | shapeless slot signature node shape =>
    apply walks_rewriteType node (by simp only [stop?, node])
    simp only [nodeParts, rewriteNode, shape]
    exact .pure _
  | pointer slot element node ih =>
    have inside := ih (covers_of_typeNode? node (by simp [Node.ranks]))
    exact walks_rewriteType node (by simp only [stop?, node])
      (inside.quiet fun element => walks_rebuilt (.pointer element))
  | reference slot element node ih =>
    have inside := ih (covers_of_typeNode? node (by simp [Node.ranks]))
    exact walks_rewriteType node (by simp only [stop?, node])
      (inside.quiet fun element => walks_rebuilt (.reference element))
  | array slot element size node ih =>
    have inside := ih (covers_of_typeNode? node (by simp [Node.ranks]))
    exact walks_rewriteType node (by simp only [stop?, node])
      (inside.quiet fun element => walks_rebuilt (.array element size))
  | memberPointer slot owner element node ihOwner ihElement =>
    have outer := ihOwner (covers_of_typeNode? node (by simp [Node.ranks]))
    have inner := ihElement (covers_of_typeNode? node (by simp [Node.ranks]))
    exact walks_rewriteType node (by simp only [stop?, node]) (outer.bind fun owner =>
      inner.quiet fun element => walks_rebuilt (.memberPointer owner element))
  | named slot name node ih =>
    exact walks_named node (ih (covers_of_typeNode? node (by simp [Node.ranks])))
  | function slot signature node f shape ihName ihResult ihArguments =>
    have name := ihName (covers_of_signature? shape (by simp [Node.ranks]))
    have result := ihResult (covers_of_signature? shape (by simp [Node.ranks]))
    have arguments := ihArguments (settled_arguments shape)
    apply walks_rewriteType node (by simp only [stop?, node])
    simp only [nodeParts, rewriteNode, shape]
    refine name.bind fun name => result.bind fun result => arguments.quiet fun arguments => ?_
    refine Walks.quiet (.storing fun t => ?_) fun type => .pure _
    exact (extends_internNode t _).trans (extends_internNode _ _)
  | qual t ih =>
    simp only [rewritePart, rewriteQual]
    refine (ih settled).quiet fun rewritten => ?_
    split <;> exact .pure _
  | unknownName n node =>
    refine .through rfl ?_
    have none : s.parts (.name n) = [] := by simp [parts, node]
    rw [none]
    refine .congr ?_ (.pure n)
    intro x grows
    exact rewriteName_of_nameNode?_eq_none ((nameNode?_extend grows settled).trans node)
  | identifier atom n node | destructor atom n node =>
    exact walks_rewriteName node ((walks_reintern atom).quiet fun text => walks_internName _)
  | qualified base member n node ihBase ihMember =>
    have outer := ihBase (covers_of_nameNode? node (by simp [Node.ranks]))
    have inner := ihMember (covers_of_nameNode? node (by simp [Node.ranks]))
    exact walks_rewriteName node (outer.bind fun base => inner.quiet fun member =>
      walks_internName (.qualified base member))
  | template atom args n node ih =>
    have inside := ih (settled_typeList (covers_of_nameNode? node (by simp [Node.ranks])))
    apply walks_rewriteName node
    refine (walks_reintern atom).bind fun identifier => inside.quiet fun args => ?_
    exact .storing fun t => (extends_internNode t _).trans (extends_internNode _ _)
  | operator kind n node => exact walks_rewriteName node (walks_internName (.operator kind))
  | conversion target n node ih =>
    have inside := ih (covers_of_nameNode? node (by simp [Node.ranks]))
    exact walks_rewriteName node (inside.quiet fun target => walks_internName (.conversion target))
  | selector parts hasArguments n node ih =>
    have inside := ih (settled_nameList (covers_of_nameNode? node (by simp [Node.ranks])))
    apply walks_rewriteName node
    refine inside.quiet fun parts => ?_
    exact .storing fun t => (extends_internNode t _).trans (extends_internNode _ _)
  | noName =>
    simp only [rewritePart, rewriteOptionalName]
    exact .pure _
  | justName n ih =>
    simp only [rewritePart, rewriteOptionalName]
    exact (ih settled).quiet fun name => .pure _
  | noTypes | noNames | noArguments => exact .pure _
  | consType first rest ihFirst ihRest =>
    have one := ihFirst (settled first (by simp))
    have others := ihRest fun q hq => settled q (by simp [hq])
    simp only [rewritePart, List.mapM_cons]
    exact one.bind fun first => others.quiet fun rest => .pure _
  | consName first rest ihFirst ihRest =>
    have one := ihFirst (settled first (by simp))
    have others := ihRest fun n hn => settled n (by simp [hn])
    simp only [rewritePart, List.mapM_cons]
    exact one.bind fun first => others.quiet fun rest => .pure _
  | consArgument a rest ihName ihType ihRest =>
    have covers := (settled a (by simp)).1
    have name := ihName (covers.mono (Nat.le_max_left ..))
    have type := ihType (covers.mono (Nat.le_max_right ..))
    have others := ihRest fun b hb => settled b (by simp [hb])
    simp only [rewritePart, List.mapM_cons, rewriteArgument]
    refine Walks.bind ?_ fun first => others.quiet fun rest => .pure _
    exact name.bind fun name => type.quiet fun type => .pure _

/-- With the providers that come with the program, what is seen of a rewrite does not depend on what
was interned or rewritten before. -/
theorem events_rewritePart (standard : ∀ p ∈ e.providers, p.Standard) {p : Part} {h : p.Handle}
    (settled : s.Settled p h) {x y : Session} (hx : s.Extends x.store) (hy : s.Extends y.store) :
    ∃ events, (rewritePart e p h x).2.events.toList = x.events.toList ++ events ∧
      (rewritePart e p h y).2.events.toList = y.events.toList ++ events := by
  have one := walks_rewritePart (e := e) p h settled x hx
  have other := walks_rewritePart (e := e) p h settled y hy
  exact one.events_eq (Environment.steady_of_standard standard) other

end Rewriting
end Respell

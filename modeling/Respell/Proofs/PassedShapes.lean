import Respell.Proofs.Walks

/-! What a rewrite reports. Its diagnostics are about the types of opaque shapes that its walk
passes by, and these can be read off the unfolded part: they are the declared types in it that are
not under an answered type, from left to right. Main statement: `shapes_rewritePart`. -/
namespace Respell

open Store

/-- The shapes of the declared types in a tree, from left to right. -/
def Tree.shapes : {p : Part} → Tree p → List OpaqueShape
  | _, undefined | _, void | _, integer _ | _, float _ | _, shapeless _ | _, unknown _ => []
  | _, declared shape _ => [shape]
  | _, pointer element | _, reference element | _, array element _ => element.shapes
  | _, memberPointer owner element => owner.shapes ++ element.shapes
  | _, named name => name.shapes
  | _, function name result arguments _ => name.shapes ++ (result.shapes ++ arguments.shapes)
  | _, qual type _ => type.shapes
  | _, identifier _ | _, destructor _ | _, operator _ | _, unknownName _ => []
  | _, qualified base member => base.shapes ++ member.shapes
  | _, template _ args => args.shapes
  | _, conversion target => target.shapes
  | _, selector parts _ => parts.shapes
  | _, noName | _, noTypes | _, noNames | _, noArguments => []
  | _, justName name => name.shapes
  | _, consType first rest => first.shapes ++ rest.shapes
  | _, consName first rest => first.shapes ++ rest.shapes
  | _, consArgument name type _ _ rest => name.shapes ++ type.shapes ++ rest.shapes

theorem Tree.shapes_qualify (t : Tree .qualified) (more : Qualifiers) :
    (t.qualify more).shapes = t.shapes := by
  cases t with
  | qual type own => cases type <;> rfl

/-- Answers that leave nothing of a type. -/
def voiding {α : Type} (answered : α → Bool) (name : α) : Option (Tree .qualified) :=
  if answered name then some (.qual .void .none) else none

/-- The shapes under a piece, where the types of answered names are left out. -/
def Store.shapesAt (s : Store) (answered : NameId → Bool) : Piece → List OpaqueShape
  | .type t => ((s.unfold .type t).substitute (voiding answered)).shapes
  | .name n => ((s.unfold .name n).substitute (voiding answered)).shapes

variable {s : Store} {answered : NameId → Bool}

/-! ### Parts of pieces -/

theorem shapes_qualified (t : QualType) :
    ((s.unfold .qualified t).substitute (voiding answered)).shapes =
      s.shapesAt answered (.type t.type) := by
  rw [unfold_qual, Unfolding.substitute, Tree.shapes_qualify]
  rfl

theorem shapes_optionalName (n : Option NameId) :
    ((s.unfold .optionalName n).substitute (voiding answered)).shapes =
      (Part.pieces .optionalName n).flatMap (s.shapesAt answered) := by
  cases n with
  | none =>
    rw [unfold_noName]
    rfl
  | some n =>
    rw [unfold_justName]
    exact (List.append_nil _).symm

theorem shapes_types (ts : List QualType) :
    ((s.unfold .types ts).substitute (voiding answered)).shapes =
      (Part.pieces .types ts).flatMap (s.shapesAt answered) := by
  induction ts with
  | nil =>
    rw [unfold_noTypes]
    rfl
  | cons first rest ih =>
    rw [unfold_consType, Unfolding.substitute, Tree.shapes, shapes_qualified, ih]
    rfl

theorem shapes_names (ns : List NameId) :
    ((s.unfold .names ns).substitute (voiding answered)).shapes =
      (Part.pieces .names ns).flatMap (s.shapesAt answered) := by
  induction ns with
  | nil =>
    rw [unfold_noNames]
    rfl
  | cons first rest ih =>
    rw [unfold_consName, Unfolding.substitute, Tree.shapes, ih]
    rfl

theorem shapes_arguments (as : List Argument) :
    ((s.unfold .arguments as).substitute (voiding answered)).shapes =
      (Part.pieces .arguments as).flatMap (s.shapesAt answered) := by
  induction as with
  | nil =>
    rw [unfold_noArguments]
    rfl
  | cons a rest ih =>
    have own : Part.pieces .arguments (a :: rest) = (Part.pieces .optionalName a.name ++
        [.type a.type.type]) ++ Part.pieces .arguments rest := rfl
    rw [unfold_consArgument, Unfolding.substitute, Tree.shapes, shapes_optionalName, shapes_qualified,
      ih, own, List.flatMap_append, List.flatMap_append, List.flatMap_singleton]

theorem shapes_pieces (p : Part) (h : p.Handle) :
    ((s.unfold p h).substitute (voiding answered)).shapes =
      (p.pieces h).flatMap (s.shapesAt answered) := by
  cases p with
  | type | name => exact (List.append_nil _).symm
  | qualified => exact (shapes_qualified h).trans (List.append_nil _).symm
  | optionalName => exact shapes_optionalName h
  | types => exact shapes_types h
  | names => exact shapes_names h
  | arguments => exact shapes_arguments h

theorem shapes_nodeParts {n : TypeNode} (silent : ∀ name, n = .named name → answered name = false)
    (walked : ∀ shape symbol, n ≠ .declared shape symbol) :
    ((s.unfoldNode n).substitute (voiding answered)).shapes =
      (s.nodeParts n).flatMap (s.shapesAt answered) := by
  cases n with
  | integer | float => rfl
  | declared shape symbol => exact absurd rfl (walked shape symbol)
  | pointer element | reference element | array element =>
    exact (shapes_qualified element).trans (List.append_nil _).symm
  | memberPointer owner element =>
    exact congrArg _ ((shapes_qualified element).trans (List.append_nil _).symm)
  | named name =>
    have unanswered : voiding answered name = none := by rw [voiding, silent name rfl, if_neg nofun]
    rw [unfoldNode, Unfolding.substitute, unanswered]
    exact (List.append_nil _).symm
  | function signature =>
    rw [unfoldNode, nodeParts]
    cases s.signature? signature with
    | none => rfl
    | some f =>
      dsimp only
      rw [Unfolding.substitute, Tree.shapes, Tree.shapes, shapes_optionalName, shapes_qualified,
        shapes_arguments, List.flatMap_append, List.flatMap_cons]

theorem shapes_nameParts (n : NameNode) :
    ((s.unfoldName n).substitute (voiding answered)).shapes =
      (s.nameParts n).flatMap (s.shapesAt answered) := by
  cases n with
  | identifier | destructor | operator => rfl
  | qualified base member => exact congrArg _ (List.append_nil _).symm
  | template identifier args => exact shapes_types (s.typeList args)
  | conversion target => exact (shapes_qualified target).trans (List.append_nil _).symm
  | selector parts => exact shapes_names (s.nameList parts)

theorem typeNode?_of_ask {piece : Piece} {name : NameId} (stop : s.stop? piece = some (.ask name)) :
    ∃ slot, piece = .type (.stored slot) ∧ s.typeNode? slot = some (.named name) := by
  unfold stop? at stop
  split at stop
  · rename_i slot
    split at stop <;> rename_i node <;> cases stop
    exact ⟨slot, rfl, node⟩
  · cases stop

theorem typeNode?_of_pass {piece : Piece} {type : TypeId} {shape : OpaqueShape}
    (stop : s.stop? piece = some (.pass type shape)) : ∃ slot symbol,
      piece = .type (.stored slot) ∧ s.typeNode? slot = some (.declared shape symbol) := by
  unfold stop? at stop
  split at stop
  · rename_i slot
    split at stop <;> rename_i node <;> cases stop
    exact ⟨slot, _, rfl, node⟩
  · cases stop

/-- A piece that is walked through has the shapes of its parts. -/
theorem shapes_parts {piece : Piece} (silent : ∀ name, s.stop? piece = some (.ask name) →
      answered name = false) (walked : ∀ type shape, s.stop? piece ≠ some (.pass type shape)) :
    s.shapesAt answered piece = (s.parts piece).flatMap (s.shapesAt answered) := by
  cases piece with
  | type t =>
    cases t with
    | undefined | void | reserved => simp [shapesAt, parts, Tree.shapes]
    | stored slot =>
      cases node : s.typeNode? slot with
      | none => simp [shapesAt, parts, node, unfold_of_typeNode?_eq_none node, Tree.shapes]
      | some n =>
        rw [shapesAt, unfold_of_typeNode? node, parts_of_typeNode? node]
        refine shapes_nodeParts ?_ ?_
        · rintro name rfl
          exact silent name (by simp only [stop?, node])
        · rintro shape symbol rfl
          exact walked (.stored slot) shape (by simp only [stop?, node])
  | name n =>
    cases node : s.nameNode? n with
    | none => simp [shapesAt, parts, node, unfold_of_nameNode?_eq_none node, Tree.shapes]
    | some m =>
      rw [shapesAt, unfold_of_nameNode? node, parts_of_nameNode? node]
      exact shapes_nameParts m

/-! ### Walks -/

/-- The diagnostics of visits. -/
def Visit.diagnostics (visits : List Visit) : List Diagnostic :=
  (visits.map Visit.event).filterMap Event.diagnostic?

theorem Walk.shapes {pieces : List Piece} {visits : List Visit} (walk : Walk s pieces visits)
    (agree : ∀ name reply, .asked name reply ∈ visits → answered name = !reply.type.isUndefined) :
    (Visit.diagnostics visits).map (·.shape) = pieces.flatMap (s.shapesAt answered) := by
  induction walk with
  | done => rfl
  | through silent _ ih =>
    rw [ih agree, List.flatMap_append, List.flatMap_cons, shapes_parts] <;> simp [silent]
  | @passed piece type shape others visits stop _ ih =>
    obtain ⟨slot, symbol, rfl, node⟩ := typeNode?_of_pass stop
    have here : s.shapesAt answered (.type (.stored slot)) = [shape] := by
      rw [shapesAt, unfold_of_typeNode? node]
      rfl
    have later := ih fun name reply mem => agree name reply (.tail _ mem)
    rw [List.flatMap_cons, here, ← later]
    rfl
  | @answered piece name reply others visits stop defined _ ih =>
    obtain ⟨slot, rfl, node⟩ := typeNode?_of_ask stop
    have given : answered name = true := by rw [agree name reply (.head _), defined]; rfl
    have here : s.shapesAt answered (.type (.stored slot)) = [] := by
      rw [shapesAt, unfold_of_typeNode? node, unfoldNode, Unfolding.substitute, voiding, given]
      rfl
    have later := ih fun name reply mem => agree name reply (.tail _ mem)
    rw [List.flatMap_cons, here, ← later]
    rfl
  | @entered piece name reply others visits stop undefined _ ih =>
    have silent : answered name = false := by rw [agree name reply (.head _), undefined]; rfl
    have later := ih fun name reply mem => agree name reply (.tail _ mem)
    rw [List.flatMap_cons, shapes_parts, ← List.flatMap_append, ← later]
    · rfl
    · intro other same
      cases stop.symm.trans same
      exact silent
    · intro type shape same
      cases stop.symm.trans same

/-- Whether the environment has an answer to the name. -/
def Environment.has (e : Environment) (s : Store) (name : NameId) : Bool :=
  !(e.ask name s).1.type.isUndefined

/-- Where answers do not come and go with the store, a rewrite reports the shapes in its part that
are not under an answered type. -/
theorem Rewriting.shapes_rewritePart {e : Environment} (steady : e.Steady) (p : Part) (h : p.Handle)
    (settled : s.Settled p h) (x : Session) (grows : s.Extends x.store) :
    ∃ more, (rewritePart e p h x).2.diagnostics = x.diagnostics ++ more ∧
      more.map (·.shape) = ((s.unfold p h).substitute (voiding (e.has s))).shapes := by
  obtain ⟨visits, walk, answered, events⟩ := walks_rewritePart (e := e) p h settled x grows
  refine ⟨Visit.diagnostics visits, ?_, ?_⟩
  · rw [Session.diagnostics, events, List.filterMap_append]
    rfl
  · rw [shapes_pieces, walk.shapes]
    intro name reply mem
    obtain ⟨now, rfl⟩ := answered.exists_reply mem
    rw [Environment.has, (steady name s now).1]

end Respell

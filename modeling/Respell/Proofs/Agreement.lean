import Respell.Proofs.Unmatched

/-! Two runs of one rewrite, under two environments. The second run goes alongside the first, from
the same store, or comes afterwards, from any later store. Where both environments give the same
answers for the names of the named types that occur, the second run repeats the first: side by side
the two intern the same, and afterwards the second finds what the first interned. Main statement:
this is so for whole types and names (`Rewriting.repeats_rewritePart`). -/
namespace Respell

open Store

inductive Timing
  | alongside
  | afterwards

namespace Timing

variable {timing : Timing} {a b c d u : Store}

/-- Where the second run may start, when the first one goes from `a` to `b`. -/
def Starts : Timing → Store → Store → Store → Prop
  | alongside, a, _, u => u = a
  | afterwards, _, b, u => b.Extends u

/-- Where the second run may end, when the first one ends in `b`. -/
def Ends : Timing → Store → Store → Prop
  | alongside, b, u => u = b
  | afterwards, _, _ => True

theorem Starts.extends (starts : timing.Starts a b u) (grows : a.Extends b) : a.Extends u := by
  cases timing with
  | alongside => exact starts ▸ .refl a
  | afterwards => exact grows.trans starts

/-- Where the second run of two steps starts, it starts for the first step. -/
theorem Starts.first (starts : timing.Starts a c u) (grows : b.Extends c) :
    timing.Starts a b u := by
  cases timing with
  | alongside => exact starts
  | afterwards => exact grows.trans starts

theorem Starts.next (starts : timing.Starts a c u) (grows : u.Extends d) (ends : timing.Ends b d) :
    timing.Starts b c d := by
  cases timing with
  | alongside => exact ends
  | afterwards => exact starts.trans grows

end Timing

theorem diagnostics_push (x : Session) (t : Store) (event : Event) :
    Session.diagnostics ⟨t, x.events.push event⟩ = x.diagnostics ++ event.diagnostic?.toList := by
  rw [Session.diagnostics, Array.toList_push, List.filterMap_append]
  cases event <;> rfl

/-- From a store on, whatever one computation does from a session, the other does again: its result
is the same, and it reports the same. What comes of a run that is repeated later is known to the
store. -/
def Repeats (timing : Timing) (s : Store) {α : Type} (act act' : Rewriting α)
    (known : Store → α → Prop) : Prop :=
  ∀ x : Session, s.Extends x.store →
    x.store.Extends (act x).2.store ∧
    (timing = .afterwards → known (act x).2.store (act x).1) ∧
    ∃ reported, (act x).2.diagnostics = x.diagnostics ++ reported ∧
      ∀ y : Session, timing.Starts x.store (act x).2.store y.store →
        (act' y).1 = (act x).1 ∧ y.store.Extends (act' y).2.store ∧
          timing.Ends (act x).2.store (act' y).2.store ∧
          (act' y).2.diagnostics = y.diagnostics ++ reported

namespace Repeats

variable {timing : Timing} {s t : Store} {α β : Type} {act act' : Rewriting α}
  {known : Store → α → Prop}

theorem later (h : Repeats timing s act act' known) (grows : s.Extends t) :
    Repeats timing t act act' known :=
  fun x e => h x (grows.trans e)

theorem pure {value : α} (settled : timing = .afterwards → ∀ t, s.Extends t → known t value) :
    Repeats timing s (pure value) (pure value) known := by
  intro x grows
  refine ⟨.refl _, fun late => settled late _ grows, [], (List.append_nil _).symm, ?_⟩
  intro y starts
  refine ⟨rfl, .refl _, ?_, (List.append_nil _).symm⟩
  cases timing with
  | alongside => exact starts
  | afterwards => trivial

theorem bind {next next' : α → Rewriting β} {known' : Store → β → Prop}
    (h : Repeats timing s act act' known)
    (then_ : ∀ t value, s.Extends t → (timing = .afterwards → known t value) →
      Repeats timing t (next value) (next' value) known') :
    Repeats timing s (act >>= next) (act' >>= next') known' := by
  intro x e
  obtain ⟨grows, settled, reported, told, again⟩ := h x e
  obtain ⟨grows', settled', reported', told', again'⟩ :=
    then_ (act x).2.store (act x).1 (e.trans grows) settled (act x).2 (.refl _)
  refine ⟨grows.trans grows', settled', reported ++ reported', ?_, ?_⟩
  · rw [← List.append_assoc, ← told]
    exact told'
  · intro y starts
    obtain ⟨result, later, ends, told⟩ := again y (starts.first grows')
    obtain ⟨result', later', ends', told'⟩ := again' (act' y).2 (starts.next later ends)
    have run : (act' >>= next') y = next' (act x).1 (act' y).2 :=
      congrArg (fun value => next' value (act' y).2) result
    rw [run]
    refine ⟨result', later.trans later', ends', ?_⟩
    rw [← List.append_assoc, ← told]
    exact told'

theorem congr {other other' : Rewriting α} (same : ∀ x, s.Extends x.store → act x = other x)
    (same' : ∀ x, s.Extends x.store → act' x = other' x)
    (h : Repeats timing s other other' known) : Repeats timing s act act' known := by
  intro x e
  obtain ⟨grows, again⟩ := h x e
  rw [same x e]
  refine ⟨grows, again.1, ?_⟩
  obtain ⟨reported, told, again⟩ := again.2
  refine ⟨reported, told, fun y starts => ?_⟩
  rw [same' y (e.trans (starts.extends grows))]
  exact again y starts

theorem emit (event : Event) :
    Repeats timing s (Rewriting.emit event) (Rewriting.emit event) fun _ _ => True := by
  intro x _
  refine ⟨.refl _, fun _ => trivial, _, diagnostics_push x x.store event, fun y starts => ?_⟩
  refine ⟨rfl, .refl _, ?_, diagnostics_push y y.store event⟩
  cases timing with
  | alongside => exact starts
  | afterwards => trivial

/-- A step of the store is repeated by itself, when it finds what it left there. -/
theorem storing {act : Storing α} (grows : ∀ t : Store, t.Extends (act t).2)
    (found : timing = .afterwards → ∀ t, s.Extends t → known (act t).2 (act t).1 ∧
      ∀ u, (act t).2.Extends u → (act u).1 = (act t).1) :
    Repeats timing s (Rewriting.storing act) (Rewriting.storing act) known := by
  intro x e
  refine ⟨grows x.store, fun late => (found late x.store e).1, [], (List.append_nil _).symm, ?_⟩
  intro y starts
  refine ⟨?_, grows y.store, ?_, (List.append_nil _).symm⟩
  · cases timing with
    | alongside => exact congrArg (fun t => (act t).1) starts
    | afterwards => exact (found rfl x.store e).2 y.store starts
  · cases timing with
    | alongside => exact congrArg (fun t => (act t).2) starts
    | afterwards => trivial

theorem cons {rest rest' : Rewriting (List α)} (one : Repeats timing s act act' known)
    (others : Repeats timing s rest rest' fun t values => ∀ value ∈ values, known t value)
    (kept : ∀ {t u value}, known t value → t.Extends u → known u value) :
    Repeats timing s (do
      let first ← act
      let values ← rest
      Pure.pure (first :: values)) (do
      let first ← act'
      let values ← rest'
      Pure.pure (first :: values)) fun t values => ∀ value ∈ values, known t value := by
  refine one.bind fun t first grows head => (others.later grows).bind fun u values later tail => ?_
  refine .pure fun late v end_ => List.forall_mem_cons.mpr ⟨kept (head late) (later.trans end_), ?_⟩
  exact fun value mem => kept (tail late value mem) end_

end Repeats

namespace Rewriting

variable {timing : Timing} {s : Store} {e e' : Environment}

theorem storing_bind {α β : Type} (act : Storing α) (next : α → Storing β) :
    storing (act >>= next) = storing act >>= fun value => storing (next value) := rfl

/-! ### Steps -/

/-- A node whose parts the store has is interned once, under whatever kind of handle. -/
theorem repeats_internNode {α : Type} {known : Store → α → Prop} (handle : Slot → α) {n : Node}
    (is : ∀ t slot, t.Covers slot.rank → known t (handle slot))
    (fits : timing = .afterwards → s.Fits n) :
    Repeats timing s (storing fun t => (handle (t.internNode n).1, (t.internNode n).2))
      (storing fun t => (handle (t.internNode n).1, (t.internNode n).2)) known := by
  refine .storing (fun t => extends_internNode t n) fun late t grows => ?_
  have there := node?_internNode ((fits late).extend grows)
  refine ⟨is _ _ (covers_of_node? there), fun u later => ?_⟩
  dsimp only
  rw [internNode_of_node? (later.nodes there)]

theorem repeats_rebuilt {n : TypeNode} (fits : timing = .afterwards → s.Fits (.type n)) :
    Repeats timing s (rebuilt n) (rebuilt n) fun t type => t.Settled .qualified type := by
  have interned : Repeats timing s (storing (internType n)) (storing (internType n))
      fun t type => t.Settled .type type :=
    repeats_internNode TypeId.stored (fun _ _ covers => covers) fits
  refine interned.bind fun t type _ known => .pure fun late u grows => ?_
  exact Settled.extend (p := .type) (known late) grows

theorem repeats_internName {n : NameNode} (fits : timing = .afterwards → s.Fits (.name n)) :
    Repeats timing s (storing (internName n)) (storing (internName n))
      fun t name => t.Settled .name name :=
  repeats_internNode NameId.mk (fun _ _ covers => covers) fits

theorem repeats_reintern {a : Atom} (covers : s.CoversAtom a) :
    Repeats timing s (reintern a) (reintern a) fun t atom => t.CoversAtom atom := by
  have text (x : Session) (grows : s.Extends x.store) :
      reintern a x = storing (internText (s.text a)) x := by
    rw [reintern, get_bind, text_extend grows covers]
  refine .congr text text (.storing (extends_internText (s.text a)) fun _ t _ => ?_)
  have known := text?_internText (s.text a) t
  refine ⟨coversAtom_of_text? known, fun u later => ?_⟩
  rw [internText_of_text? (later.texts known)]

theorem repeats_function {f : Signature}
    (name : timing = .afterwards → s.Settled .optionalName f.name)
    (result : timing = .afterwards → s.Settled .qualified f.result)
    (arguments : timing = .afterwards → s.Settled .arguments f.arguments) :
    Repeats timing s (do
      let type ← storing (functionType f)
      pure (⟨type, .none⟩ : QualType)) (do
      let type ← storing (functionType f)
      pure ⟨type, .none⟩) fun t type => t.Settled .qualified type := by
  have signature : Repeats timing s (storing (internSignature f)) (storing (internSignature f))
      fun t h => t.Covers h.slot.rank :=
    repeats_internNode SignatureId.mk (fun _ _ covers => covers) fun late =>
      fits_signature (name late) (result late) (arguments late)
  simp only [functionType, storing_bind, bind_assoc]
  refine signature.bind fun t h _ known => repeats_rebuilt fun late => ?_
  exact fits_type (by simpa [Node.ranks] using known late)

theorem repeats_template {atom : Atom} {args : List QualType}
    (covers : timing = .afterwards → s.CoversAtom atom)
    (settled : timing = .afterwards → s.Settled .types args) :
    Repeats timing s (storing (templateName atom args)) (storing (templateName atom args))
      fun t name => t.Settled .name name := by
  have list : Repeats timing s (storing (internTypeList args)) (storing (internTypeList args))
      fun t h => t.Covers h.slot.rank :=
    repeats_internNode TypeListId.mk (fun _ _ covers => covers) fun late =>
      fits_typeList (settled late)
  rw [templateName, storing_bind]
  refine list.bind fun t h grows known => repeats_internName fun late => ?_
  refine fits_of_forall ?_ (by simpa [Node.ranks] using known late)
  simpa [Node.atoms] using (covers late).extend grows

theorem repeats_selector {parts : List NameId} (hasArguments : Bool)
    (settled : timing = .afterwards → s.Settled .names parts) :
    Repeats timing s (storing (selectorName parts hasArguments))
      (storing (selectorName parts hasArguments)) fun t name => t.Settled .name name := by
  have list : Repeats timing s (storing (internNameList parts)) (storing (internNameList parts))
      fun t h => t.Covers h.slot.rank :=
    repeats_internNode NameListId.mk (fun _ _ covers => covers) fun late =>
      fits_nameList (settled late)
  rw [selectorName, storing_bind]
  refine list.bind fun t h _ known => repeats_internName fun late => ?_
  exact fits_of_forall (by simp [Node.atoms]) (by simpa [Node.ranks] using known late)

/-- What the environment answers for a name, when it is asked in a rewrite. -/
def asking (e : Environment) (name : NameId) : Rewriting QualType := do
  let reply ← storing (e.ask name)
  emit (.query name reply.asked)
  pure reply.type

theorem rewriteNode_named (e : Environment) (s : Store) (type : TypeId) (name : NameId) :
    rewriteNode e s type (.named name) = (do
      let type ← asking e name
      if type.isUndefined then do
        let name ← rewriteName e name
        rebuilt (.named name)
      else pure type) := by
  simp only [rewriteNode, asking, bind_assoc, pure_bind]

/-- Asked for the name in the second of two runs, the one environment answers what the other
answered in the first. -/
def AsksAlike (timing : Timing) (e e' : Environment) (s : Store) (name : NameId) : Prop :=
  ∀ t, s.Extends t →
    (timing = .afterwards → (e.ask name t).2.Settled .qualified (e.ask name t).1.type) ∧
    ∀ u, timing.Starts t (e.ask name t).2 u →
      (e'.ask name u).1.type = (e.ask name t).1.type ∧
        timing.Ends (e.ask name t).2 (e'.ask name u).2

theorem repeats_asking {name : NameId} (alike : AsksAlike timing e e' s name) :
    Repeats timing s (asking e name) (asking e' name) fun t type => t.Settled .qualified type := by
  intro x grows
  obtain ⟨settled, again⟩ := alike x.store grows
  refine ⟨e.extends_ask name x.store, settled, [], ?_, fun y starts => ?_⟩
  · exact diagnostics_push x (e.ask name x.store).2 (.query name (e.ask name x.store).1.asked)
  · obtain ⟨result, ends⟩ := again y.store starts
    exact ⟨result, e'.extends_ask name y.store, ends,
      diagnostics_push y (e'.ask name y.store).2 (.query name (e'.ask name y.store).1.asked)⟩

theorem repeats_rewriteType {slot : Slot} {n : TypeNode} {known : Store → QualType → Prop}
    (node : s.typeNode? slot = some n)
    (h : Repeats timing s (rewriteNode e s (.stored slot) n) (rewriteNode e' s (.stored slot) n)
      known) :
    Repeats timing s (rewriteType e (.stored slot)) (rewriteType e' (.stored slot)) known :=
  .congr (rewriteType_eq_rewriteNode node) (rewriteType_eq_rewriteNode node) h

theorem repeats_rewriteName {name : NameId} {n : NameNode} {known : Store → NameId → Prop}
    (node : s.nameNode? name = some n)
    (h : Repeats timing s (rewriteNameNode e s n) (rewriteNameNode e' s n) known) :
    Repeats timing s (rewriteName e name) (rewriteName e' name) known :=
  .congr (rewriteName_eq_rewriteNameNode node) (rewriteName_eq_rewriteNameNode node) h

/-! ### Whole parts -/

theorem repeats_rewritePart (p : Part) (h : p.Handle) (settled : s.Settled p h)
    (alike : (s.unfold p h).Everywhere (AsksAlike timing e e' s) fun _ _ => True) :
    Repeats timing s (rewritePart e p h) (rewritePart e' p h)
      fun t result => t.Settled p.rewritten result := by
  -- A part is rewritten to a handle that the store has, so a node over it is found again.
  induction p, h using s.part_induction with
  | undefined | void | reserved =>
    simp only [rewritePart, rewriteType]
    exact .pure fun _ _ _ => Nat.zero_le _
  | unknown slot node =>
    have same (e : Environment) (x : Session) (grows : s.Extends x.store) :
        rewriteType e (.stored slot) x = (pure ⟨.stored slot, .none⟩ : Rewriting QualType) x :=
      rewriteType_of_typeNode?_eq_none ((typeNode?_extend grows settled).trans node)
    refine .congr (same e) (same e') (.pure fun _ t grows => ?_)
    exact Settled.extend (p := .type) settled grows
  | integer slot kind node | float slot kind node =>
    have fits := fits_of_node? (node?_of_typeNode? node)
    exact repeats_rewriteType node (repeats_rebuilt fun _ => fits)
  | declared slot shape symbol node =>
    exact repeats_rewriteType node ((Repeats.emit _).bind fun t _ grows _ =>
      .pure fun _ u later => Settled.extend (p := .type) settled (grows.trans later))
  | pointer slot element node ih | reference slot element node ih
  | array slot element size node ih =>
    rw [unfold_of_typeNode? node] at alike
    have inside := ih (covers_of_typeNode? node (by simp [Node.ranks])) alike
    refine repeats_rewriteType node (inside.bind fun t element _ known => ?_)
    refine repeats_rebuilt fun late => fits_type ?_
    simpa [Node.ranks, Settled] using known late
  | memberPointer slot owner element node ihOwner ihElement =>
    rw [unfold_of_typeNode? node] at alike
    have outer := ihOwner (covers_of_typeNode? node (by simp [Node.ranks])) alike.1
    have inner := ihElement (covers_of_typeNode? node (by simp [Node.ranks])) alike.2
    refine repeats_rewriteType node (outer.bind fun t owner grows owned => ?_)
    refine (inner.later grows).bind fun u element later known => repeats_rebuilt fun late => ?_
    refine fits_of_forall (by simp [Node.atoms]) ?_
    simpa [Node.ranks, Settled] using And.intro ((owned late).extend later) (known late)
  | named slot name node ih =>
    rw [unfold_of_typeNode? node] at alike
    obtain ⟨asked, inside⟩ := alike
    have entered := ih (covers_of_typeNode? node (by simp [Node.ranks])) inside
    apply repeats_rewriteType node
    rw [rewriteNode_named, rewriteNode_named]
    refine (repeats_asking asked).bind fun t type grows answered => ?_
    by_cases absent : type.isUndefined = true
    · rw [if_pos absent, if_pos absent]
      refine (entered.later grows).bind fun u name _ known => repeats_rebuilt fun late => ?_
      exact fits_type (by simpa [Node.ranks, Settled] using known late)
    · rw [if_neg absent, if_neg absent]
      exact .pure fun late u later => Settled.extend (p := .type) (answered late) later
  | function slot signature node f shape ihName ihResult ihArguments =>
    rw [unfold_of_typeNode? node] at alike
    simp only [unfoldNode, shape] at alike
    have name := ihName (covers_of_signature? shape (by simp [Node.ranks])) alike.1
    have result := ihResult (covers_of_signature? shape (by simp [Node.ranks])) alike.2.1
    have arguments := ihArguments (settled_arguments shape) alike.2.2
    apply repeats_rewriteType node
    simp only [rewriteNode, shape]
    refine name.bind fun t name grows named => ?_
    refine (result.later grows).bind fun u result grows' resulted => ?_
    refine (arguments.later (grows.trans grows')).bind fun v arguments later known => ?_
    exact repeats_function (fun late => (named late).extend (grows'.trans later))
      (fun late => (resulted late).extend later) known
  | shapeless slot signature node shape =>
    apply repeats_rewriteType node
    simp only [rewriteNode, shape]
    exact .pure fun _ t grows => Settled.extend (p := .type) settled grows
  | qual t ih =>
    rw [unfold_qual] at alike
    simp only [rewritePart, rewriteQual]
    refine (ih settled alike.2).bind fun u rewritten _ known => ?_
    split
    · exact .pure fun _ _ _ => Nat.zero_le _
    · exact .pure fun late v later => Settled.extend (p := .type) (known late) later
  | unknownName n node =>
    have same (e : Environment) (x : Session) (grows : s.Extends x.store) :
        rewriteName e n x = (pure n : Rewriting NameId) x :=
      rewriteName_of_nameNode?_eq_none ((nameNode?_extend grows settled).trans node)
    refine .congr (same e) (same e') (.pure fun _ t grows => ?_)
    exact Settled.extend (p := .name) settled grows
  | identifier atom n node | destructor atom n node =>
    have covers : s.CoversAtom atom :=
      (fits_of_node? (node?_of_nameNode? node)).coversAtom (by simp [Node.atoms])
    refine repeats_rewriteName node ((repeats_reintern covers).bind fun t text _ known => ?_)
    refine repeats_internName fun late => fits_of_forall ?_ (by simp [Node.ranks])
    simpa [Node.atoms] using known late
  | qualified base member n node ihBase ihMember =>
    rw [unfold_of_nameNode? node] at alike
    have outer := ihBase (covers_of_nameNode? node (by simp [Node.ranks])) alike.1
    have inner := ihMember (covers_of_nameNode? node (by simp [Node.ranks])) alike.2
    refine repeats_rewriteName node (outer.bind fun t base grows based => ?_)
    refine (inner.later grows).bind fun u member later known => repeats_internName fun late => ?_
    refine fits_of_forall (by simp [Node.atoms]) ?_
    simpa [Node.ranks, Settled] using And.intro ((based late).extend later) (known late)
  | template atom args n node ih =>
    rw [unfold_of_nameNode? node] at alike
    have covers : s.CoversAtom atom :=
      (fits_of_node? (node?_of_nameNode? node)).coversAtom (by simp [Node.atoms])
    have inside := ih (settled_typeList (covers_of_nameNode? node (by simp [Node.ranks]))) alike
    refine repeats_rewriteName node ((repeats_reintern covers).bind fun t text grows texted => ?_)
    refine (inside.later grows).bind fun u args later known => ?_
    exact repeats_template (fun late => (texted late).extend later) known
  | operator kind n node =>
    have fits := fits_of_node? (node?_of_nameNode? node)
    exact repeats_rewriteName node (repeats_internName fun _ => fits)
  | conversion target n node ih =>
    rw [unfold_of_nameNode? node] at alike
    have inside := ih (covers_of_nameNode? node (by simp [Node.ranks])) alike
    refine repeats_rewriteName node (inside.bind fun t target _ known => ?_)
    refine repeats_internName fun late => fits_of_forall (by simp [Node.atoms]) ?_
    simpa [Node.ranks, Settled] using known late
  | selector parts hasArguments n node ih =>
    rw [unfold_of_nameNode? node] at alike
    have inside := ih (settled_nameList (covers_of_nameNode? node (by simp [Node.ranks]))) alike
    exact repeats_rewriteName node (inside.bind fun t parts _ known =>
      repeats_selector hasArguments known)
  | noName =>
    simp only [rewritePart, rewriteOptionalName]
    exact .pure fun _ _ _ => Nat.zero_le _
  | justName n ih =>
    rw [unfold_justName] at alike
    simp only [rewritePart, rewriteOptionalName]
    exact (ih settled alike).bind fun t name _ known =>
      .pure fun late u later => Settled.extend (p := .name) (known late) later
  | noTypes | noNames | noArguments => exact .pure fun _ _ _ => by simp [Settled]
  | consType first rest ihFirst ihRest =>
    rw [unfold_consType] at alike
    have one := ihFirst (settled first (by simp)) alike.1
    have others := ihRest (fun q hq => settled q (by simp [hq])) alike.2
    simp only [rewritePart, List.mapM_cons]
    exact one.cons others fun covers grows => covers.extend grows
  | consName first rest ihFirst ihRest =>
    rw [unfold_consName] at alike
    have one := ihFirst (settled first (by simp)) alike.1
    have others := ihRest (fun q hq => settled q (by simp [hq])) alike.2
    simp only [rewritePart, List.mapM_cons]
    exact one.cons others fun covers grows => covers.extend grows
  | consArgument a rest ihName ihType ihRest =>
    rw [unfold_consArgument] at alike
    have covers := settled a (by simp)
    have name := ihName (covers.1.mono (Nat.le_max_left ..)) alike.1
    have type := ihType (covers.1.mono (Nat.le_max_right ..)) alike.2.1
    have others := ihRest (fun b hb => settled b (by simp [hb])) alike.2.2
    have first : Repeats timing s (rewriteArgument e a) (rewriteArgument e' a)
        fun t b => t.Covers b.rank ∧ ∀ d ∈ b.defaultValue, t.CoversAtom d := by
      rw [rewriteArgument, rewriteArgument]
      refine name.bind fun t name grows named => ?_
      refine (type.later grows).bind fun u type later typed => ?_
      refine .pure fun late v end_ => ⟨Nat.max_le.mpr ⟨?_, ?_⟩, fun d hd => ?_⟩
      · exact ((named late).extend later).extend end_
      · exact (typed late).extend end_
      · exact (covers.2 d hd).extend ((grows.trans later).trans end_)
    simp only [rewritePart, List.mapM_cons]
    exact first.cons others fun known grows =>
      ⟨known.1.extend grows, fun d hd => (known.2 d hd).extend grows⟩

end Rewriting
end Respell

import Respell.Proofs.Shapes
import Respell.Proofs.Substitution
import Respell.Rewriting

/-! Rewriting handles is substitution on trees. Main statements: the rewriting functions take a step
for each node (`rewriteType_of_typeNode?`, `rewriteName_of_nameNode?`), and the handle that a
rewrite gives out denotes the substituted tree (`yields_rewritePart`), whatever else was interned on
the way. -/
namespace Respell

namespace Environment

/-- The type is a defined one that denotes the expected tree, or undefined when none is expected. -/
def Meets (exact : Prop) (expected : Option (Tree .qualified)) (t : Store) (type : QualType) :
    Prop :=
  match expected with
  | some tree => type.isUndefined = false ∧ t.Denotes exact tree type
  | none => type.isUndefined = true

/-- From `s` on, whatever else is interned, the environment answers names with the given trees. -/
def Answers (e : Environment) (exact : Prop) (s : Store)
    (answer : NameId → Option (Tree .qualified)) : Prop :=
  ∀ name, Yields id s (e.ask name) fun t reply => Meets exact (answer name) t reply.type

theorem Answers.later {e : Environment} {exact : Prop} {s t : Store}
    {answer : NameId → Option (Tree .qualified)} (h : e.Answers exact s answer)
    (grows : s.Extends t) : e.Answers exact t answer :=
  fun name => (h name).later grows

end Environment

namespace Rewriting

/-! ### One step -/

def rewriteNode (e : Environment) (s : Store) (t : TypeId) : TypeNode → Rewriting QualType
  | .integer kind => rebuilt (.integer kind)
  | .float kind => rebuilt (.float kind)
  | .pointer element => do
    let element ← rewriteQual e element
    rebuilt (.pointer element)
  | .reference element => do
    let element ← rewriteQual e element
    rebuilt (.reference element)
  | .array element size => do
    let element ← rewriteQual e element
    rebuilt (.array element size)
  | .memberPointer owner element => do
    let owner ← rewriteName e owner
    let element ← rewriteQual e element
    rebuilt (.memberPointer owner element)
  | .named name => do
    let reply ← storing (e.ask name)
    emit (.query name reply.asked)
    if reply.type.isUndefined then
      let name ← rewriteName e name
      rebuilt (.named name)
    else pure reply.type
  | .function signature =>
    match s.signature? signature with
    | none => pure ⟨t, .none⟩
    | some f => do
      let name ← rewriteOptionalName e f.name
      let result ← rewriteQual e f.result
      let arguments ← f.arguments.mapM (rewriteArgument e)
      let type ← storing (Store.functionType { name, result, arguments, attributes := f.attributes })
      pure ⟨type, .none⟩
  | .declared shape _ => do
    emit (.unsupported t shape)
    pure ⟨t, .none⟩

def rewriteNameNode (e : Environment) (s : Store) : NameNode → Rewriting NameId
  | .identifier text => do
    let text ← reintern text
    storing (Store.internName (.identifier text))
  | .qualified base member => do
    let base ← rewriteName e base
    let member ← rewriteName e member
    storing (Store.internName (.qualified base member))
  | .template identifier args => do
    let identifier ← reintern identifier
    let args ← (s.typeList args).mapM (rewriteQual e)
    storing (Store.templateName identifier args)
  | .destructor identifier => do
    let identifier ← reintern identifier
    storing (Store.internName (.destructor identifier))
  | .operator kind => storing (Store.internName (.operator kind))
  | .conversion target => do
    let target ← rewriteQual e target
    storing (Store.internName (.conversion target))
  | .selector parts hasArguments => do
    let parts ← (s.nameList parts).mapM (rewriteName e)
    storing (Store.selectorName parts hasArguments)

theorem mapM_attach {α β : Type} (act : α → Rewriting β) (l : List α) :
    (l.attach.mapM fun a => act a.1) = l.mapM act := by
  have val := List.mapM_map (m := Rewriting) (f := Subtype.val) (g := act) (l := l.attach)
  rw [List.attach_map_subtype_val] at val
  exact val.symm

theorem get_bind {α : Type} (next : Session → Rewriting α) (x : Session) :
    (get >>= next) x = next x x := rfl

theorem rewriteType_of_typeNode? {e : Environment} {x : Session} {slot : Slot} {n : TypeNode}
    (h : x.store.typeNode? slot = some n) :
    rewriteType e (.stored slot) x = rewriteNode e x.store (.stored slot) n x := by
  rw [rewriteType, get_bind]
  refine congrFun ?_ x
  split <;> rename_i node <;> cases h.symm.trans node <;> try rfl
  rw [rewriteNode]
  split <;> rename_i shape <;> simp only [shape, mapM_attach]

theorem rewriteType_of_typeNode?_eq_none {e : Environment} {x : Session} {slot : Slot}
    (h : x.store.typeNode? slot = none) :
    rewriteType e (.stored slot) x = (⟨.stored slot, .none⟩, x) := by
  rw [rewriteType, get_bind]
  change _ = (pure ⟨.stored slot, .none⟩ : Rewriting QualType) x
  refine congrFun ?_ x
  split <;> rename_i node <;> cases h.symm.trans node
  rfl

theorem rewriteQual_of_typeNode?_eq_none {e : Environment} {x : Session} {slot : Slot}
    {qualifiers : Qualifiers} (h : x.store.typeNode? slot = none) :
    rewriteQual e ⟨.stored slot, qualifiers⟩ x = (⟨.stored slot, qualifiers⟩, x) := by
  rw [rewriteQual, Store.bind_eq (rewriteType_of_typeNode?_eq_none h)]
  simp [QualType.isUndefined, QualType.qualify, Store.pure_eq]

/-- An answer is taken as it is, and gets the qualifiers of the position. -/
theorem rewriteQual_of_answered {e : Environment} {x : Session} {slot : Slot} {name : NameId}
    (node : x.store.typeNode? slot = some (.named name))
    (answered : (e.ask name x.store).1.type.isUndefined = false) (more : Qualifiers) :
    (rewriteQual e ⟨.stored slot, more⟩ x).1 = (e.ask name x.store).1.type.qualify more ∧
      (rewriteQual e ⟨.stored slot, more⟩ x).2.store = (e.ask name x.store).2 := by
  have type : rewriteType e (.stored slot) x = ((e.ask name x.store).1.type,
      ⟨(e.ask name x.store).2, x.events.push (.query name (e.ask name x.store).1.asked)⟩) := by
    rw [rewriteType_of_typeNode? node, rewriteNode]
    change (if (e.ask name x.store).1.type.isUndefined then (do
      let name ← rewriteName e name
      rebuilt (.named name)) else pure (e.ask name x.store).1.type : Rewriting QualType) _ = _
    rw [answered]
    rfl
  rw [rewriteQual, Store.bind_eq type, answered]
  exact ⟨rfl, rfl⟩

theorem rewriteName_of_nameNode? {e : Environment} {x : Session} {name : NameId} {n : NameNode}
    (h : x.store.nameNode? name = some n) :
    rewriteName e name x = rewriteNameNode e x.store n x := by
  rw [rewriteName, get_bind]
  refine congrFun ?_ x
  split <;> rename_i node <;> cases h.symm.trans node <;> simp only [rewriteNameNode, mapM_attach]

theorem rewriteName_of_nameNode?_eq_none {e : Environment} {x : Session} {name : NameId}
    (h : x.store.nameNode? name = none) : rewriteName e name x = (name, x) := by
  rw [rewriteName, get_bind]
  change _ = (pure name : Rewriting NameId) x
  refine congrFun ?_ x
  split <;> rename_i node <;> cases h.symm.trans node
  rfl

def rewritePart (e : Environment) : (p : Part) → p.Handle → Rewriting p.rewritten.Handle
  | .type, t => rewriteType e t
  | .qualified, t => rewriteQual e t
  | .name, n => rewriteName e n
  | .optionalName, n => rewriteOptionalName e n
  | .types, ts => List.mapM (rewriteQual e) ts
  | .names, ns => List.mapM (rewriteName e) ns
  | .arguments, as => List.mapM (rewriteArgument e) as

/-! ### Steps in later stores -/

open Store

variable {e : Environment} {s t : Store} {exact : Prop}

theorem rewriteNode_extend (grows : s.Extends t) (type : TypeId) {n : TypeNode}
    (fits : s.Fits (.type n)) : rewriteNode e t type n = rewriteNode e s type n := by
  cases n with
  | function signature =>
    rw [rewriteNode, rewriteNode, signature?_extend grows (fits.covers (by simp [Node.ranks]))]
  | _ => rfl

theorem rewriteNameNode_extend (grows : s.Extends t) {n : NameNode} (fits : s.Fits (.name n)) :
    rewriteNameNode e t n = rewriteNameNode e s n := by
  cases n with
  | template identifier args =>
    rw [rewriteNameNode, rewriteNameNode, typeList_extend grows (fits.covers (by simp [Node.ranks]))]
  | selector parts hasArguments =>
    rw [rewriteNameNode, rewriteNameNode, nameList_extend grows (fits.covers (by simp [Node.ranks]))]
  | _ => rfl

theorem rewriteType_eq_rewriteNode {slot : Slot} {n : TypeNode} (node : s.typeNode? slot = some n)
    (x : Session) (grows : s.Extends x.store) :
    rewriteType e (.stored slot) x = rewriteNode e s (.stored slot) n x := by
  have there := node?_of_typeNode? node
  rw [rewriteType_of_typeNode? (typeNode?_of_node? (grows.nodes there)),
    rewriteNode_extend grows _ (fits_of_node? there)]

theorem rewriteName_eq_rewriteNameNode {name : NameId} {n : NameNode}
    (node : s.nameNode? name = some n) (x : Session) (grows : s.Extends x.store) :
    rewriteName e name x = rewriteNameNode e s n x := by
  have there := node?_of_nameNode? node
  rw [rewriteName_of_nameNode? (nameNode?_of_node? (grows.nodes there)),
    rewriteNameNode_extend grows (fits_of_node? there)]

theorem yields_rewriteType {slot : Slot} {n : TypeNode} {post : Store → QualType → Prop}
    (node : s.typeNode? slot = some n)
    (h : Yields Session.store s (rewriteNode e s (.stored slot) n) post) :
    Yields Session.store s (rewriteType e (.stored slot)) post :=
  .congr (rewriteType_eq_rewriteNode node) h

theorem yields_rewriteName {name : NameId} {n : NameNode} {post : Store → NameId → Prop}
    (node : s.nameNode? name = some n)
    (h : Yields Session.store s (rewriteNameNode e s n) post) :
    Yields Session.store s (rewriteName e name) post :=
  .congr (rewriteName_eq_rewriteNameNode node) h

theorem yields_storing {α : Type} {act : Storing α} {post : Store → α → Prop}
    (h : Yields id s act post) : Yields Session.store s (storing act) post :=
  fun x grows => h x.store grows

theorem yields_emit (event : Event) : Yields Session.store s (emit event) fun _ _ => True :=
  fun _ _ => ⟨.refl _, trivial⟩

theorem yields_rebuilt {n : TypeNode} {tree : Tree .type}
    (h : Yields id s (internType n) fun t type => t.Denotes exact tree type) :
    Yields Session.store s (rebuilt n) fun t type => t.Denotes exact (.qual tree .none) type := by
  apply (yields_storing h).bind
  intro t type _ d
  exact .pure fun u grows => denotes_qual .none (d.extend grows)

theorem yields_reintern {a : Atom} (covers : s.CoversAtom a) :
    Yields Session.store s (reintern a) fun t b => t.texts.text? b = some (s.text a) := by
  intro x grows
  obtain ⟨later, known⟩ := yields_internText (s := x.store) (x.store.text a) x.store (.refl _)
  exact ⟨later, known.trans (congrArg some (text_extend grows covers))⟩

/-! ### Whole parts -/

theorem denotes_absent : s.Denotes exact (.qual .undefined .none) QualType.undefined :=
  denotes_qual .none denotes_undefined

/-- The qualifiers of a position are added to a type, and lost with the absence of one. -/
theorem denotes_qualify {tree : Tree .qualified} {type : QualType} (qualifiers : Qualifiers)
    (d : s.Denotes exact tree type) :
    s.Denotes exact (tree.qualify qualifiers)
      (if type.isUndefined then .undefined else type.qualify qualifiers) := by
  cases tree with
  | qual tree own =>
    obtain ⟨dt, rfl⟩ := d.type
    by_cases absent : type.type = .undefined
    · have tree_absent : tree = .undefined := by
        rw [← dt.reads, absent, partTree, typeTree]
      rw [tree_absent, Tree.qualify, if_pos (by simp [QualType.isUndefined, absent])]
      exact denotes_absent
    · have present : (Tree.qual tree type.qualifiers).qualify qualifiers =
          .qual tree (type.qualifiers ∪ qualifiers) := by
        cases tree with
        | undefined => exact absurd (eq_undefined_of_partTree dt.reads) absent
        | _ => rfl
      rw [present, if_neg (by simpa [QualType.isUndefined] using absent)]
      exact denotes_qual _ dt

theorem denotes_unchanged {type : TypeId} {tree : Tree .type} (settled : s.Settled .type type)
    (grounded : exact → (s.unfold .type type).Grounded s)
    (reads : (s.unfold .type type).tree = tree) :
    s.Denotes exact (.qual tree .none) ⟨type, .none⟩ := by
  apply denotes_qual .none
  rw [← reads, tree_unfold]
  exact ⟨settled, rfl, grounded⟩

theorem yields_consArgument_copied {outer : Tree .optionalName} {tree : Tree .qualified}
    {trees : Tree .arguments} {a : Argument} {name : Option NameId} {type : QualType}
    {act : Rewriting (List Argument)} (covers : ∀ d ∈ a.defaultValue, s.CoversAtom d)
    (known : exact → ∀ d ∈ a.defaultValue, s.texts.text? d = some (s.text d))
    (dn : s.Denotes exact outer name) (dt : s.Denotes exact tree type)
    (others : Yields Session.store s act fun t h => t.Denotes exact trees h) :
    Yields Session.store s
      (do let rest ← act; pure ({ a with name, type } :: rest)) fun t h =>
      t.Denotes exact
        (.consArgument outer tree (a.defaultValue.map s.text) a.storage trees) h := by
  apply others.bind
  intro t rest grows ds
  refine .pure fun u grows' => ?_
  have later := grows.trans grows'
  have same : a.defaultValue.map u.text = a.defaultValue.map s.text :=
    Option.map_congr fun d hd => text_extend later (covers d hd)
  rw [← same]
  refine denotes_consArgument (a := { a with name, type }) (dn.extend later) (dt.extend later)
    (fun d hd => (covers d hd).extend later) ?_ (ds.extend grows')
  intro ex d hd
  have old := known ex d hd
  rw [later.texts old, text_extend later (covers d hd)]

theorem yields_rewritePart {answer : NameId → Option (Tree .qualified)}
    (answers : e.Answers exact s answer) (p : Part) (h : p.Handle) (settled : s.Settled p h)
    (grounded : exact → (s.unfold p h).Grounded s) :
    Yields Session.store s (rewritePart e p h) fun t r =>
      t.Denotes exact ((s.unfold p h).substitute answer) r := by
  -- The parts of a settled handle are settled, and what earlier parts interned does not change them.
  induction p, h using s.part_induction with
  | undefined =>
    simp only [rewritePart, rewriteType, unfold_undefined, Unfolding.substitute]
    exact .pure fun _ _ => denotes_absent
  | void =>
    simp only [rewritePart, rewriteType, unfold_void, Unfolding.substitute]
    exact .pure fun _ _ => denotes_qual .none denotes_void
  | reserved i =>
    simp only [rewritePart, rewriteType]
    have d := denotes_unchanged settled grounded rfl
    simp only [unfold_reserved] at d ⊢
    exact .pure fun t grows => d.extend grows
  | unknown slot node =>
    have d := denotes_unchanged settled grounded rfl
    rw [unfold_of_typeNode?_eq_none node] at d ⊢
    refine .congr ?_ (.pure fun t grows => d.extend grows)
    intro x grows
    exact rewriteType_of_typeNode?_eq_none ((typeNode?_extend grows settled).trans node)
  | shapeless slot signature node shape =>
    have d := denotes_unchanged settled grounded rfl
    rw [unfold_of_typeNode? node] at d ⊢
    apply yields_rewriteType node
    simp only [unfoldNode, rewriteNode, shape] at d ⊢
    exact .pure fun t grows => d.extend grows
  | declared slot shape symbol node =>
    have d := denotes_unchanged settled grounded rfl
    rw [unfold_of_typeNode? node] at d ⊢
    apply yields_rewriteType node
    apply (yields_emit _).bind
    intro t _ grows _
    exact .pure fun u grows' => d.extend (grows.trans grows')
  | integer slot kind node =>
    rw [unfold_of_typeNode? node]
    exact yields_rewriteType node (yields_rebuilt (yields_integer kind))
  | float slot kind node =>
    rw [unfold_of_typeNode? node]
    exact yields_rewriteType node (yields_rebuilt (yields_float kind))
  | pointer slot element node ih =>
    rw [unfold_of_typeNode? node] at grounded ⊢
    have covers := covers_of_typeNode? node (r := element.rank) (by simp [Node.ranks])
    apply yields_rewriteType node
    apply (ih covers grounded).bind
    intro t element' _ d
    exact yields_rebuilt (yields_pointer d)
  | reference slot element node ih =>
    rw [unfold_of_typeNode? node] at grounded ⊢
    have covers := covers_of_typeNode? node (r := element.rank) (by simp [Node.ranks])
    apply yields_rewriteType node
    apply (ih covers grounded).bind
    intro t element' _ d
    exact yields_rebuilt (yields_reference d)
  | array slot element size node ih =>
    rw [unfold_of_typeNode? node] at grounded ⊢
    have covers := covers_of_typeNode? node (r := element.rank) (by simp [Node.ranks])
    apply yields_rewriteType node
    apply (ih covers grounded).bind
    intro t element' _ d
    exact yields_rebuilt (yields_array size d)
  | memberPointer slot owner element node ihOwner ihElement =>
    rw [unfold_of_typeNode? node] at grounded ⊢
    have outer := covers_of_typeNode? node (r := owner.slot.rank) (by simp [Node.ranks])
    have covers := covers_of_typeNode? node (r := element.rank) (by simp [Node.ranks])
    apply yields_rewriteType node
    apply (ihOwner outer fun ex => (grounded ex).1).bind
    intro t owner' grows o
    apply ((ihElement covers fun ex => (grounded ex).2).later grows).bind
    intro u element' grows' d
    exact yields_rebuilt (yields_memberPointer (o.extend grows') d)
  | named slot name node ih =>
    rw [unfold_of_typeNode? node] at grounded ⊢
    have covers := covers_of_typeNode? node (r := name.slot.rank) (by simp [Node.ranks])
    apply yields_rewriteType node
    apply (yields_storing (answers name)).bind
    intro t reply grows meets
    apply (yields_emit _).bind
    intro u _ grows' _
    rw [unfoldNode, Unfolding.substitute]
    cases expected : answer name with
    | some tree =>
      rw [expected] at meets
      rw [meets.1]
      exact .pure fun v grows'' => meets.2.extend (grows'.trans grows'')
    | none =>
      rw [expected] at meets
      have absent : reply.type.isUndefined = true := meets
      rw [absent, if_pos rfl]
      apply ((ih covers grounded).later (grows.trans grows')).bind
      intro v name' _ d
      exact yields_rebuilt (yields_named d)
  | function slot signature node f shape ihName ihResult ihArguments =>
    rw [unfold_of_typeNode? node] at grounded ⊢
    simp only [unfoldNode, shape] at grounded ⊢
    have name := covers_of_signature? shape (r := optionalRank f.name) (by simp [Node.ranks])
    have result := covers_of_signature? shape (r := f.result.rank) (by simp [Node.ranks])
    apply yields_rewriteType node
    simp only [rewriteNode, shape]
    apply (ihName name fun ex => (grounded ex).1).bind
    intro t name' grows dn
    apply ((ihResult result fun ex => (grounded ex).2.1).later grows).bind
    intro u result' grows' dr
    refine ((ihArguments (settled_arguments shape) fun ex => (grounded ex).2.2).later
      (grows.trans grows')).bind ?_
    intro v arguments' grows'' da
    refine (yields_storing (yields_function
      (f := ⟨name', result', arguments', f.attributes⟩)
      (dn.extend (grows'.trans grows'')) (dr.extend grows'') da)).bind ?_
    intro w type _ d
    exact .pure fun _ last => denotes_qual .none (d.extend last)
  | qual t ih =>
    rw [unfold_qual] at grounded ⊢
    simp only [rewritePart, rewriteQual]
    apply (ih settled grounded).bind
    intro u type grows d
    have q := denotes_qualify t.qualifiers d
    split <;> rename_i absent <;> simp only [absent] at q
    · exact .pure fun v grows' => q.extend grows'
    · exact .pure fun v grows' => q.extend grows'
  | unknownName n node =>
    have d : s.Denotes exact (s.partTree .name n) n := ⟨settled, rfl, grounded⟩
    rw [← tree_unfold, unfold_of_nameNode?_eq_none node] at d
    rw [unfold_of_nameNode?_eq_none node]
    refine .congr ?_ (.pure fun t grows => d.extend grows)
    intro x grows
    exact rewriteName_of_nameNode?_eq_none ((nameNode?_extend grows settled).trans node)
  | identifier atom n node =>
    rw [unfold_of_nameNode? node] at grounded ⊢
    have fits := fits_of_node? (node?_of_nameNode? node)
    apply yields_rewriteName node
    apply (yields_reintern (fits.coversAtom (a := atom) (by simp [Node.atoms]))).bind
    intro t atom' _ known
    exact yields_storing (yields_identifier known)
  | destructor atom n node =>
    rw [unfold_of_nameNode? node] at grounded ⊢
    have fits := fits_of_node? (node?_of_nameNode? node)
    apply yields_rewriteName node
    apply (yields_reintern (fits.coversAtom (a := atom) (by simp [Node.atoms]))).bind
    intro t atom' _ known
    exact yields_storing (yields_destructor known)
  | qualified base member n node ihBase ihMember =>
    rw [unfold_of_nameNode? node] at grounded ⊢
    have outer := covers_of_nameNode? node (r := base.slot.rank) (by simp [Node.ranks])
    have inner := covers_of_nameNode? node (r := member.slot.rank) (by simp [Node.ranks])
    apply yields_rewriteName node
    apply (ihBase outer fun ex => (grounded ex).1).bind
    intro t base' grows o
    apply ((ihMember inner fun ex => (grounded ex).2).later grows).bind
    intro u member' grows' i
    exact yields_storing (yields_qualified (o.extend grows') i)
  | template atom args n node ih =>
    rw [unfold_of_nameNode? node] at grounded ⊢
    have fits := fits_of_node? (node?_of_nameNode? node)
    have covers := fits.covers (r := args.slot.rank) (by simp [Node.ranks])
    apply yields_rewriteName node
    apply (yields_reintern (fits.coversAtom (a := atom) (by simp [Node.atoms]))).bind
    intro t atom' grows known
    apply ((ih (settled_typeList covers) fun ex => (grounded ex).2.2).later grows).bind
    intro u args' grows' d
    exact yields_storing (yields_template (grows'.texts known) d)
  | operator kind n node =>
    rw [unfold_of_nameNode? node]
    exact yields_rewriteName node (yields_storing (yields_operator kind))
  | conversion target n node ih =>
    rw [unfold_of_nameNode? node] at grounded ⊢
    have covers := covers_of_nameNode? node (r := target.rank) (by simp [Node.ranks])
    apply yields_rewriteName node
    apply (ih covers grounded).bind
    intro t target' _ d
    exact yields_storing (yields_conversion d)
  | selector parts hasArguments n node ih =>
    rw [unfold_of_nameNode? node] at grounded ⊢
    have covers := covers_of_nameNode? node (r := parts.slot.rank) (by simp [Node.ranks])
    apply yields_rewriteName node
    apply (ih (settled_nameList covers) fun ex => (grounded ex).2).bind
    intro t parts' _ d
    exact yields_storing (yields_selector hasArguments d)
  | noName =>
    simp only [rewritePart, rewriteOptionalName, unfold_noName, Unfolding.substitute]
    exact .pure fun _ _ => denotes_noName
  | justName n ih =>
    rw [unfold_justName] at grounded ⊢
    simp only [rewritePart, rewriteOptionalName]
    apply (ih settled grounded).bind
    intro t name _ d
    exact .pure fun u grows' => denotes_justName (d.extend grows')
  | noTypes =>
    rw [unfold_noTypes]
    exact .pure fun _ _ => denotes_noTypes
  | noNames =>
    rw [unfold_noNames]
    exact .pure fun _ _ => denotes_noNames
  | noArguments =>
    rw [unfold_noArguments]
    exact .pure fun _ _ => denotes_noArguments
  | consType first rest ihFirst ihRest =>
    rw [unfold_consType] at grounded ⊢
    simp only [rewritePart, List.mapM_cons]
    apply (ihFirst (settled first (by simp)) fun ex => (grounded ex).1).bind
    intro t first' grows d
    refine ((ihRest (fun q hq => settled q (by simp [hq])) fun ex => (grounded ex).2).later
      grows).bind ?_
    intro u rest' grows' ds
    exact .pure fun v last => denotes_consType (d.extend (grows'.trans last)) (ds.extend last)
  | consName first rest ihFirst ihRest =>
    rw [unfold_consName] at grounded ⊢
    simp only [rewritePart, List.mapM_cons]
    apply (ihFirst (settled first (by simp)) fun ex => (grounded ex).1).bind
    intro t first' grows d
    refine ((ihRest (fun q hq => settled q (by simp [hq])) fun ex => (grounded ex).2).later
      grows).bind ?_
    intro u rest' grows' ds
    exact .pure fun v last => denotes_consName (d.extend (grows'.trans last)) (ds.extend last)
  | consArgument a rest ihName ihType ihRest =>
    rw [unfold_consArgument] at grounded ⊢
    obtain ⟨covers, atoms⟩ := settled a (by simp)
    have name := ihName (covers.mono (Nat.le_max_left ..)) fun ex => (grounded ex).1
    have type := ihType (covers.mono (Nat.le_max_right ..)) fun ex => (grounded ex).2.1
    have known : exact → ∀ d ∈ a.defaultValue, s.texts.text? d = some (s.text d) :=
      fun ex d hd => (grounded ex).2.2.1 (d, s.text d) (Option.mem_map_of_mem _ hd)
    have rest := ihRest (fun b hb => settled b (by simp [hb])) fun ex => (grounded ex).2.2.2
    simp only [rewritePart, List.mapM_cons, rewriteArgument, bind_assoc, pure_bind]
    apply name.bind
    intro t name' grows dn
    apply (type.later grows).bind
    intro u type' grows' dt
    have later := grows.trans grows'
    have same :
        (a.defaultValue.map fun d => (d, s.text d)).map (·.2) = a.defaultValue.map u.text := by
      rw [Option.map_map]
      exact Option.map_congr fun d hd => (text_extend later (atoms d hd)).symm
    rw [Unfolding.substitute, same]
    refine yields_consArgument_copied (fun d hd => (atoms d hd).extend later) ?_ (dn.extend grows')
      dt (rest.later later)
    intro ex d hd
    rw [later.texts (known ex d hd), text_extend later (atoms d hd)]

end Rewriting
end Respell

import Respell.Proofs.Agreement

/-! Which names a rewrite depends on. Only the names of the named types that occur are asked for,
and nothing else of the environment is seen. Main statements: environments that agree on these names
rewrite alike, one after the other (`rewrite_agreeing`), and bindings and declarations of other
names do not keep two environments from agreeing on a name (`Environment.Shipped.agreesOn`). -/
namespace Respell

open Store Rewriting

variable {timing : Timing} {s : Store} {q q' : Query} {ps ps' : List Provider}

/-! ### What qualification answers with -/

/-- The first meaning of the queried name: the full name of a declaration, or a type. -/
def Query.meaning (q : Query) : Option ((NameId × List NameId) ⊕ QualType) :=
  match q.scope with
  | none => none
  | some scope =>
    match q.context.lookup q.name scope with
    | [] => none
    | meaning :: _ =>
      match meaning.symbol.map q.context.qualifiedName with
      | some (base :: rest) => some (.inl (base, rest))
      | _ => some (.inr meaning.type)

namespace Provider

def meaningAnswer : Option ((NameId × List NameId) ⊕ QualType) → Storing QualType
  | none => pure .undefined
  | some (.inl (base, rest)) => do
    let name ← qualifiedName base rest
    let type ← namedType name
    pure ⟨type, .none⟩
  | some (.inr type) => pure type

theorem qualifiedAnswer_eq (q : Query) : qualifiedAnswer q = meaningAnswer q.meaning := by
  unfold qualifiedAnswer Query.meaning
  cases q.scope with
  | none => rfl
  | some scope =>
    dsimp only
    cases q.context.lookup q.name scope with
    | nil => rfl
    | cons meaning others =>
      dsimp only
      rcases meaning.symbol.map q.context.qualifiedName with _ | _ | ⟨base, rest⟩ <;> rfl

theorem repeats_qualifiedName {base : NameId} {rest : List NameId}
    (first : timing = .afterwards → s.Settled .name base) (names : s.Settled .names rest) :
    Repeats timing s (storing (qualifiedName base rest)) (storing (qualifiedName base rest))
      fun t name => t.Settled .name name := by
  induction rest generalizing s base with
  | nil => exact .pure fun late t grows => Settled.extend (p := .name) (first late) grows
  | cons member rest ih =>
    have fits (late : timing = .afterwards) : s.Fits (.name (.qualified base member)) := by
      refine fits_of_forall (by simp [Node.atoms]) ?_
      simpa [Node.ranks, Settled] using And.intro (first late) (names member (by simp))
    refine (repeats_internName fits).bind fun t base grows known => ih known ?_
    exact fun n hn => (names n (by simp [hn])).extend grows

/-- Every handle in the meaning is one of the store's, or none that it gives out. -/
def MeaningSettled (s : Store) : Option ((NameId × List NameId) ⊕ QualType) → Prop
  | none => True
  | some (.inl (base, rest)) => s.Settled .name base ∧ s.Settled .names rest
  | some (.inr type) => s.Settled .qualified type

theorem repeats_meaningAnswer {meaning : Option ((NameId × List NameId) ⊕ QualType)}
    (settled : MeaningSettled s meaning) :
    Repeats timing s (storing (meaningAnswer meaning)) (storing (meaningAnswer meaning))
      fun t type => t.Settled .qualified type := by
  rcases meaning with _ | ⟨base, rest⟩ | type
  · exact .pure fun _ _ _ => Nat.zero_le _
  · simp only [meaningAnswer, namedType, storing_bind]
    refine (repeats_qualifiedName (fun _ => settled.1) settled.2).bind fun t name _ known => ?_
    refine repeats_rebuilt fun late => fits_type ?_
    simpa [Node.ranks, Settled] using known late
  · exact .pure fun _ t grows => Settled.extend (p := .qualified) settled grows

end Provider

/-! ### Changes that do not concern a name -/

namespace Environment

/-- What a stack of providers answers, without the number of providers asked. -/
def answering (q : Query) (ps : List Provider) : Rewriting QualType := do
  let reply ← storing (askInTurn q ps)
  pure reply.type

theorem answering_cons (q : Query) (p : Provider) (ps : List Provider) :
    answering q (p :: ps) = (do
      let type ← storing (p.answer q)
      if type.isUndefined then answering q ps else pure type) := by
  simp only [answering, askInTurn, storing_bind, bind_assoc]
  congr 1
  funext type
  split <;> rfl

/-- One stack of providers comes from the other by changes that do not concern the queried name:
maps bind it to the same type, qualification finds the same meaning for it, and providers that are
added or removed are silent about it. -/
inductive ChangedElsewhere (q q' : Query) : List Provider → List Provider → Prop
  | nil : ChangedElsewhere q q' [] []
  | maps {m m' : BindingMap} {ps ps' : List Provider} (same : m.get? q.name = m'.get? q'.name)
      (rest : ChangedElsewhere q q' ps ps') :
      ChangedElsewhere q q' (.ofBindings m :: ps) (.ofBindings m' :: ps')
  | qualifying {ps ps' : List Provider} (same : q.meaning = q'.meaning)
      (rest : ChangedElsewhere q q' ps ps') :
      ChangedElsewhere q q' (.qualifying :: ps) (.qualifying :: ps')
  | removed {p : Provider} {ps ps' : List Provider} (silent : p.answer q = pure .undefined)
      (rest : ChangedElsewhere q q' ps ps') : ChangedElsewhere q q' (p :: ps) ps'
  | added {p : Provider} {ps ps' : List Provider} (silent : p.answer q' = pure .undefined)
      (rest : ChangedElsewhere q q' ps ps') : ChangedElsewhere q q' ps (p :: ps')

theorem answering_of_silent {p : Provider} (silent : p.answer q = pure .undefined) :
    answering q (p :: ps) = answering q ps := by
  rw [answering_cons, silent]
  rfl

/-- The answer of the first provider that has one, when the first providers answer alike. -/
theorem repeats_answering_cons {p p' : Provider}
    (top : Repeats timing s (storing (p.answer q)) (storing (p'.answer q'))
      fun t type => t.Settled .qualified type)
    (others : Repeats timing s (answering q ps) (answering q' ps')
      fun t type => t.Settled .qualified type) :
    Repeats timing s (answering q (p :: ps)) (answering q' (p' :: ps'))
      fun t type => t.Settled .qualified type := by
  rw [answering_cons, answering_cons]
  refine top.bind fun t type grows known => ?_
  by_cases absent : type.isUndefined = true
  · rw [if_pos absent, if_pos absent]
    exact others.later grows
  · rw [if_neg absent, if_neg absent]
    exact .pure fun late u later => Settled.extend (p := .qualified) (known late) later

theorem repeats_answering (changed : ChangedElsewhere q q' ps ps')
    (bound : ∀ m, Provider.ofBindings m ∈ ps →
      s.Settled .qualified ((m.get? q.name).getD .undefined))
    (meaning : Provider.MeaningSettled s q.meaning) :
    Repeats timing s (answering q ps) (answering q' ps')
      fun t type => t.Settled .qualified type := by
  induction changed with
  | nil => exact .pure fun _ _ _ => Nat.zero_le _
  | @maps m m' ps ps' same rest ih =>
    refine repeats_answering_cons ?_ (ih fun m hm => bound m (List.mem_cons_of_mem _ hm))
    have settled := bound m List.mem_cons_self
    simp only [Provider.ofBindings, Provider.ofAnswers, same] at settled ⊢
    exact .pure fun _ t grows => Settled.extend (p := .qualified) settled grows
  | qualifying same rest ih =>
    refine repeats_answering_cons ?_ (ih fun m hm => bound m (List.mem_cons_of_mem _ hm))
    simp only [Provider.qualifying, Provider.qualifiedAnswer_eq, ← same]
    exact Provider.repeats_meaningAnswer meaning
  | removed silent rest ih =>
    rw [answering_of_silent silent]
    exact ih fun m hm => bound m (List.mem_cons_of_mem _ hm)
  | added silent rest ih =>
    rw [answering_of_silent silent]
    exact ih bound

/-- From the store on, the second environment gives the name the answer that the first one gave
before. The answer is a handle that was given out, or one that never is. -/
def AgreesOn (e e' : Environment) (s : Store) (name : NameId) : Prop :=
  ∀ t, s.Extends t → (e.ask name t).2.Settled .qualified (e.ask name t).1.type ∧
    ∀ u, (e.ask name t).2.Extends u → (e'.ask name u).1.type = (e.ask name t).1.type

namespace Shipped

variable {e e' : Environment} {name : NameId}

theorem settled_bound (shipped : e.Shipped s) {m : BindingMap}
    (mem : Provider.ofBindings m ∈ e.providers) (name : NameId) :
    s.Settled .qualified ((m.get? name).getD .undefined) := by
  -- The query has no scope, so qualification would have no answer to it.
  rcases shipped.providers _ mem with same | ⟨m', same, bound⟩
  · have nothing : (m.get? name).getD .undefined = .undefined :=
      congrArg (fun p : Provider => (p.answer ⟨name, 0, none, .empty⟩ s).1) same
    rw [nothing]
    exact Nat.zero_le _
  · have equal : (m.get? name).getD .undefined = (m'.get? name).getD .undefined :=
      congrArg (fun p : Provider => (p.answer ⟨name, 0, none, .empty⟩ s).1) same
    rw [equal]
    cases found : m'.get? name with
    | none => exact Nat.zero_le _
    | some type =>
      obtain ⟨b, hb, rfl⟩ := Option.map_eq_some_iff.mp found
      exact bound b (List.mem_reverse.mp (List.mem_of_find?_eq_some hb))

theorem settled_meaning (shipped : e.Shipped s) (name : NameId) :
    Provider.MeaningSettled s (e.query name).meaning := by
  have meanings := shipped.meanings name
  have names := shipped.names
  unfold Query.meaning
  dsimp only [query]
  cases e.scope with
  | none => trivial
  | some scope =>
    dsimp only
    cases found : e.context.lookup name scope with
    | nil => trivial
    | cons meaning others =>
      dsimp only
      have own := meanings scope meaning (by simp [found])
      rcases full : meaning.symbol.map e.context.qualifiedName with _ | _ | ⟨base, rest⟩
      · exact own
      · exact own
      · obtain ⟨symbol, -, chain⟩ := Option.map_eq_some_iff.mp full
        exact ⟨names symbol base (by simp [chain]), fun n hn => names symbol n (by simp [chain, hn])⟩

/-- Environments that differ in what concerns other names only agree on the name. -/
theorem agreesOn (shipped : e.Shipped s)
    (changed : ChangedElsewhere (e.query name) (e'.query name) e.providers e'.providers) :
    e.AgreesOn e' s name := by
  have repeats : Repeats .afterwards s (answering (e.query name) e.providers)
      (answering (e'.query name) e'.providers) fun t type => t.Settled .qualified type :=
    repeats_answering changed (fun m mem => shipped.settled_bound mem name)
      (shipped.settled_meaning name)
  intro t grows
  obtain ⟨-, settled, _, -, again⟩ := repeats ⟨t, #[]⟩ grows
  exact ⟨settled rfl, fun u later => (again ⟨u, #[]⟩ later).1⟩

end Shipped
end Environment

/-! ### Whole rewrites -/

/-- The run from `y` comes to the result of the run from `x`, and reports the same in the same
order. -/
structure RepeatsRun {α : Type} (x y : Session) (run again : α × Session) : Prop where
  result : again.1 = run.1
  reported : ∃ reported, run.2.diagnostics = x.diagnostics ++ reported ∧
    again.2.diagnostics = y.diagnostics ++ reported

namespace Rewriting

variable {e e' : Environment} {x y : Session}

theorem repeatsRun_rewritePart {p : Part} {h : p.Handle} (settled : x.store.Settled p h)
    (agree : (x.store.unfold p h).Everywhere (e.AgreesOn e' x.store) fun _ _ => True)
    (start : y.store = (rewritePart e p h x).2.store) :
    RepeatsRun x y (rewritePart e p h x) (rewritePart e' p h y) := by
  have alike : (x.store.unfold p h).Everywhere (AsksAlike .afterwards e e' x.store)
      fun _ _ => True :=
    agree.mono fun name agrees t grows =>
      ⟨fun _ => (agrees t grows).1, fun u later => ⟨(agrees t grows).2 u later, trivial⟩⟩
  obtain ⟨-, -, reported, told, again⟩ := repeats_rewritePart p h settled alike x (.refl _)
  obtain ⟨result, -, -, told'⟩ := again y (start ▸ .refl _)
  exact ⟨result, reported, told, told'⟩

/-- The name `T::T`, which has the bound name `T` as its components. -/
def pairName : NameId × Store := internName (.qualified firstName.1 firstName.1) firstName.2

def pairNamed : Slot × Store := pairName.2.internNode (.type (.named pairName.1))

theorem nameNode?_pairName :
    pairName.2.nameNode? pairName.1 = some (.qualified firstName.1 firstName.1) := by
  have covers := covers_of_node? (node?_of_nameNode? nameNode?_firstName)
  refine nameNode?_internName (fits_of_forall (by simp [Node.atoms]) ?_)
  simpa [Node.ranks] using covers

theorem typeNode?_pairNamed :
    pairNamed.2.typeNode? pairNamed.1 = some (.named pairName.1) := by
  have covers := covers_of_node? (node?_of_nameNode? nameNode?_pairName)
  refine typeNode?_of_node? (node?_internNode (fits_type ?_))
  simpa [Node.ranks] using covers

theorem nameNode?_firstName_pairName :
    pairName.2.nameNode? firstName.1 = some (.identifier firstAtom.1) :=
  nameNode?_of_node? ((extends_internName _ firstName.2).nodes
    (node?_of_nameNode? nameNode?_firstName))

theorem firstName_ne_pairName : firstName.1 ≠ pairName.1 := by
  intro same
  have node := nameNode?_firstName_pairName
  rw [same] at node
  cases node.symm.trans nameNode?_pairName

/-- The type `T::T` is asked for as a whole, and its component `T` is not. -/
theorem everywhere_pairNamed {named : NameId → Prop} (whole : named pairName.1)
    (qualifiers : Qualifiers) :
    (pairNamed.2.unfold .qualified ⟨.stored pairNamed.1, qualifiers⟩).Everywhere named
      fun _ _ => True := by
  have grows : pairName.2.Extends pairNamed.2 := extends_internNode pairName.2 _
  have pair := nameNode?_of_node? (grows.nodes (node?_of_nameNode? nameNode?_pairName))
  have first := nameNode?_of_node? (grows.nodes (node?_of_nameNode? nameNode?_firstName_pairName))
  rw [unfold_qual, unfold_of_typeNode? typeNode?_pairNamed, unfoldNode, unfold_of_nameNode? pair,
    unfoldName, unfold_of_nameNode? first]
  exact ⟨trivial, whole, trivial, trivial⟩

end Rewriting
end Respell

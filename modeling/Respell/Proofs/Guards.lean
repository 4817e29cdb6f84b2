import Respell.Proofs.BindingStacks
import Respell.Proofs.Commuting
import Respell.Report

/-! Runs over one environment, in which providers are entered and left, the scope and the context
are set, names are asked for and parts rewritten, in any order. A provider is entered under a guard,
and guards are closed from the inside out. Main statement: what a use gives back depends on the
guards that are open then, on the scope and the context that were set last, and on nothing else that
was done to the environment before (`Use.runs_afresh`). -/
namespace Respell

/-- What is done with an environment. `leave` closes the innermost open guard: at the end of its
block, where it is dropped, or earlier. -/
inductive Use
  | enter (provider : Provider)
  | leave
  | switchScope (scope : Option ScopeId)
  | setContext (context : LookupContext)
  | apply (name : NameId)
  | rewrite (target : Target)

namespace Use

/-- What a use gives back. A rewrite has a session of its own, and tells of it. -/
inductive Outcome
  | done
  | previous (scope : Option ScopeId)
  | reply (reply : Reply)
  | rewritten (target : Target) (events : Array Event)

def outcome (e : Environment) : Use → Storing Outcome
  | enter _ | leave | setContext _ => pure .done
  | switchScope scope => pure (.previous (e.switchScope scope).1)
  | apply name => do
    let reply ← e.ask name
    pure (.reply reply)
  | rewrite target => fun s =>
    let (target, session) := Task.run ⟨e, target⟩ s
    (.rewritten target session.events, session.store)

/-- The environment that the next use finds. -/
def next (e : Environment) : Use → Environment
  | enter p => e.enter p
  | leave => e.leave
  | switchScope scope => (e.switchScope scope).2
  | setContext context => e.setContext context
  | apply _ | rewrite _ => e

def runAll : List Use → Environment → Storing (List Outcome)
  | [], _ => pure []
  | use :: rest, e => do
    let outcome ← use.outcome e
    let others ← runAll rest (use.next e)
    pure (outcome :: others)

def scope? : Use → Option (Option ScopeId)
  | switchScope scope => some scope
  | _ => none

def context? : Use → Option LookupContext
  | setContext context => some context
  | _ => none

/-! ### Guards -/

def KeepsGuards : Use → Prop
  | enter _ | leave => False
  | switchScope _ | setContext _ | apply _ | rewrite _ => True

/-- Every guard that is opened is closed, and no other. -/
inductive Closed : List Use → Prop
  | nil : Closed []
  | keep {use : Use} {rest : List Use} (keeps : use.KeepsGuards) (others : Closed rest) :
      Closed (use :: rest)
  | within (p : Provider) {inside rest : List Use} (block : Closed inside) (others : Closed rest) :
      Closed (enter p :: (inside ++ leave :: rest))

/-- Guards are properly nested: the run can go on until every guard is closed. -/
def Nested (uses : List Use) : Prop := ∃ more, Closed (uses ++ more)

/-- The guards of these providers are open at the end, the first one outermost. Whatever else was
opened is closed. -/
inductive Open : List Use → List Provider → Prop
  | none {uses : List Use} (closed : Closed uses) : Open uses []
  | within (p : Provider) {before inside : List Use} {ps : List Provider} (closed : Closed before)
      (others : Open inside ps) : Open (before ++ enter p :: inside) (p :: ps)

variable {uses before inside rest : List Use} {use : Use} {p : Provider} {ps : List Provider}

theorem Closed.append (closed : Closed uses) (others : Closed rest) : Closed (uses ++ rest) := by
  induction closed with
  | nil => exact others
  | keep keeps _ ih => exact .keep keeps ih
  | within p block _ _ ih =>
    rw [List.cons_append, List.append_assoc]
    exact .within p block ih

theorem Closed.guard (p : Provider) (block : Closed inside) :
    Closed (enter p :: (inside ++ [leave])) :=
  .within p block .nil

theorem Open.behind (closed : Closed before) (opened : Open inside ps) :
    Open (before ++ inside) ps := by
  cases opened with
  | none others => exact .none (closed.append others)
  | within p others opened =>
    rw [← List.append_assoc]
    exact .within p (closed.append others) opened

/-- Wherever a run stands whose guards will all be closed, it can be told which of them are open. -/
theorem Closed.exists_open (closed : Closed uses) (start : before <+: uses) :
    ∃ ps, Open before ps := by
  induction closed generalizing before with
  | nil =>
    rw [List.prefix_nil.mp start]
    exact ⟨[], .none .nil⟩
  | keep keeps _ ih =>
    rcases List.prefix_cons_iff.mp start with rfl | ⟨tail, rfl, onward⟩
    · exact ⟨[], .none .nil⟩
    · obtain ⟨ps, opened⟩ := ih onward
      exact ⟨ps, opened.behind (.keep keeps .nil)⟩
  | @within p inside rest block _ ihInside ihRest =>
    rcases List.prefix_cons_iff.mp start with rfl | ⟨tail, rfl, more, whole⟩
    · exact ⟨[], .none .nil⟩
    -- The run stands inside the guard, at its end, or behind it.
    rcases List.append_eq_append_iff.mp whole with ⟨left, rfl, -⟩ | ⟨beyond, rfl, leaves⟩
    · obtain ⟨ps, opened⟩ := ihInside (List.prefix_append tail left)
      exact ⟨p :: ps, .within p .nil opened⟩
    rcases List.cons_eq_append_iff.mp leaves with ⟨rfl, -⟩ | ⟨behind, rfl, onward⟩
    · rw [List.append_nil]
      exact ⟨[p], .within p .nil (.none block)⟩
    · obtain ⟨ps, opened⟩ := ihRest ⟨more, onward.symm⟩
      have split : enter p :: (inside ++ leave :: behind) =
          (enter p :: (inside ++ [leave])) ++ behind := by simp
      exact ⟨ps, split ▸ opened.behind (block.guard p)⟩

/-- A guard that is left was opened before, and those that were opened inside it are closed. -/
theorem Closed.exists_enter (closed : Closed uses) (place : uses = before ++ leave :: rest) :
    ∃ earlier p inside, before = earlier ++ enter p :: inside ∧ Closed inside := by
  induction closed generalizing before rest with
  | nil => simp at place
  | keep keeps _ ih =>
    rcases List.cons_eq_append_iff.mp place with ⟨-, here⟩ | ⟨tail, rfl, onward⟩
    · cases here
      exact keeps.elim
    · obtain ⟨earlier, p, inside, rfl, block⟩ := ih onward
      exact ⟨_ :: earlier, p, inside, rfl, block⟩
  | @within p inside others block _ ihInside ihRest =>
    rcases List.cons_eq_append_iff.mp place with ⟨-, here⟩ | ⟨tail, rfl, onward⟩
    · cases here
    -- It is this guard that is left, one behind it, or one inside it.
    rcases List.append_eq_append_iff.mp onward with ⟨beyond, rfl, leaves⟩ | ⟨left, rfl, leaves⟩
    · rcases List.cons_eq_append_iff.mp leaves with ⟨rfl, -⟩ | ⟨behind, rfl, later⟩
      · exact ⟨[], p, inside, by simp, block⟩
      · obtain ⟨earlier, p', inside', rfl, block'⟩ := ihRest later
        exact ⟨enter p :: (inside ++ leave :: earlier), p', inside', by simp, block'⟩
    · rcases List.cons_eq_append_iff.mp leaves with ⟨rfl, -⟩ | ⟨behind, rfl, -⟩
      · exact ⟨[], p, tail, rfl, by simpa using block⟩
      · obtain ⟨earlier, p', inside', rfl, block'⟩ := ihInside rfl
        exact ⟨enter p :: earlier, p', inside', rfl, block'⟩

end Use

/-! ### Environments after a run -/

namespace Environment

open Use

variable {e : Environment} {uses before inside : List Use} {use : Use} {ps : List Provider}

def after (e : Environment) (uses : List Use) : Environment := uses.foldl Use.next e

def scopeAfter (e : Environment) (uses : List Use) : Option ScopeId :=
  (uses.filterMap Use.scope?).getLastD e.scope

def contextAfter (e : Environment) (uses : List Use) : LookupContext :=
  (uses.filterMap Use.context?).getLastD e.context

/-- A new environment with the scope and the context that the uses set last. The providers are
entered one after the other, behind those that were there before the uses. -/
def afresh (e : Environment) (uses : List Use) (ps : List Provider) : Environment :=
  enterAll { scope := e.scopeAfter uses, context := e.contextAfter uses } (e.providers.reverse ++ ps)

theorem after_cons (e : Environment) (use : Use) (rest : List Use) :
    e.after (use :: rest) = (use.next e).after rest := rfl

theorem after_append (e : Environment) (uses rest : List Use) :
    e.after (uses ++ rest) = (e.after uses).after rest := List.foldl_append

theorem providers_next (keeps : use.KeepsGuards) (e : Environment) :
    (use.next e).providers = e.providers := by
  cases use with
  | enter | leave => exact keeps.elim
  | switchScope | setContext | apply | rewrite => rfl

theorem providers_after_closed (closed : Closed uses) (e : Environment) :
    (e.after uses).providers = e.providers := by
  induction closed generalizing e with
  | nil => rfl
  | keep keeps _ ih => rw [after_cons, ih, providers_next keeps]
  | within p _ _ ihInside ihRest =>
    rw [after_cons, after_append, after_cons, ihRest]
    change ((e.enter p).after _).providers.tail = e.providers
    rw [ihInside]
    rfl

theorem providers_after (opened : Open uses ps) (e : Environment) :
    (e.after uses).providers = ps.reverse ++ e.providers := by
  induction opened generalizing e with
  | none closed => exact providers_after_closed closed e
  | within p closed _ ih =>
    rw [after_append, after_cons, ih, List.reverse_cons, List.append_assoc]
    change _ ++ p :: (e.after _).providers = _
    rw [providers_after_closed closed]
    rfl

/-- What only some uses set is what the last one of them has set. -/
theorem read_after {α : Type} (read : Environment → α) (set? : Use → Option α)
    (step : ∀ use e, read (Use.next e use) = (set? use).getD (read e)) (e : Environment)
    (uses : List Use) : read (e.after uses) = (uses.filterMap set?).getLastD (read e) := by
  induction uses generalizing e with
  | nil => rfl
  | cons use rest ih =>
    rw [after_cons, ih, step, List.filterMap_cons]
    cases set? use with
    | none => rfl
    | some value => exact List.getLastD_cons.symm

theorem scope_after (e : Environment) (uses : List Use) :
    (e.after uses).scope = e.scopeAfter uses :=
  read_after (·.scope) Use.scope? (fun use _ => by cases use <;> rfl) e uses

theorem context_after (e : Environment) (uses : List Use) :
    (e.after uses).context = e.contextAfter uses :=
  read_after (·.context) Use.context? (fun use _ => by cases use <;> rfl) e uses

/-- Nothing is left of what was done but the providers of the open guards and what was set last. -/
theorem after_eq_afresh (opened : Open uses ps) (e : Environment) :
    e.after uses = e.afresh uses ps := by
  rw [afresh, enterAll_eq, ← scope_after, ← context_after]
  have providers : (e.providers.reverse ++ ps).reverse ++ [] = (e.after uses).providers := by
    simp [providers_after opened]
  rw [providers]

/-- To leave a guard restores the providers that were there before it, and nothing else. -/
theorem after_guard (block : Closed inside) (e : Environment) (before : List Use) (p : Provider) :
    e.after (before ++ .enter p :: (inside ++ [.leave])) =
      { e.after (before ++ .enter p :: inside) with providers := (e.after before).providers } := by
  have left : (((e.after before).enter p).after inside).providers.tail =
      (e.after before).providers := by
    rw [providers_after_closed block]
    rfl
  rw [after_append, after_append, after_cons, after_cons, after_append, ← left]
  rfl

theorem ask_of_bound {m : BindingMap} {rest : List Provider} {name : NameId} {type : QualType}
    {s : Store} (top : e.providers = .ofBindings m :: rest) (bound : m.get? name = some type)
    (defined : type.isUndefined = false) : e.ask name s = (⟨type, 1⟩, s) := by
  rw [ask, top]
  exact askInTurn_of_bound bound defined

/-! ### Providers for one function -/

/-- Enters the providers, each under a guard around the rest, and runs the function inside. -/
def withProviders {α : Type} (e : Environment) (run : Environment → α) :
    List Provider → α × Environment
  | [] => (run e, e)
  | p :: rest =>
    let (result, inside) := (e.enter p).withProviders run rest
    (result, inside.leave)

theorem withProviders_eq {α : Type} (e : Environment) (run : Environment → α) (ps : List Provider) :
    e.withProviders run ps = (run (e.enterAll ps), e) := by
  induction ps generalizing e with
  | nil => rfl
  | cons p rest ih =>
    rw [withProviders, ih]
    rfl

end Environment

/-- The report of a job is made inside the guards of the providers that the job enters. -/
theorem Job.report_withProviders (job : Job) (qualify : Bool) (bindings : BindingMap)
    (layout : Layout) (s : Store) :
    ((Environment.withScope ((layout.scopeAt? job.scope).getD DeclarationTable.globalScope)
        ⟨some layout.table.resolver⟩).withProviders (fun e => rewriteSubject e job.subject s)
        ((if qualify then [Provider.qualifying] else []) ++ [.ofBindings bindings])).1 =
      rewriteSubject (job.environment qualify bindings layout) job.subject s := by
  rw [Environment.withProviders_eq]
  rfl

/-! ### Runs -/

namespace Use

variable {uses before : List Use} {ps : List Provider}

theorem outcome_apply (e : Environment) (name : NameId) (s : Store) :
    ((apply name).outcome e s).1 = .reply (e.ask name s).1 := rfl

theorem runAll_cons (use : Use) (rest : List Use) (e : Environment) (s : Store) :
    runAll (use :: rest) e s =
      ((use.outcome e s).1 :: (runAll rest (use.next e) (use.outcome e s).2).1,
        (runAll rest (use.next e) (use.outcome e s).2).2) := rfl

theorem runAll_append (uses rest : List Use) (e : Environment) (s : Store) :
    runAll (uses ++ rest) e s =
      ((runAll uses e s).1 ++ (runAll rest (e.after uses) (runAll uses e s).2).1,
        (runAll rest (e.after uses) (runAll uses e s).2).2) := by
  induction uses generalizing e s with
  | nil => rfl
  | cons use others ih =>
    rw [List.cons_append, runAll_cons, ih, runAll_cons, e.after_cons]
    rfl

theorem length_runAll (uses : List Use) (e : Environment) (s : Store) :
    (runAll uses e s).1.length = uses.length := by
  induction uses generalizing e s with
  | nil => rfl
  | cons use rest ih => rw [runAll_cons, List.length_cons, ih, List.length_cons]

/-- The use that comes next in a run gives back what it gives back in a new environment, to which
nothing was done but to enter the providers of the open guards and to set the scope and the context
that were set last. -/
structure AsAfresh (e : Environment) (s : Store) (before : List Use) (use : Use) (rest : List Use)
    (ps : List Provider) : Prop where
  environment : e.after before = e.afresh before ps
  outcome : (runAll (before ++ use :: rest) e s).1[before.length]? =
    some (use.outcome (e.afresh before ps) (runAll before e s).2).1
  store : (runAll (before ++ [use]) e s).2 =
    (use.outcome (e.afresh before ps) (runAll before e s).2).2

theorem Open.asAfresh (opened : Open before ps) (e : Environment) (s : Store) (use : Use)
    (rest : List Use) : AsAfresh e s before use rest ps := by
  have environment := Environment.after_eq_afresh opened e
  refine ⟨environment, ?_, ?_⟩
  · rw [runAll_append, runAll_cons, environment,
      List.getElem?_append_right (length_runAll before e s).le, length_runAll, Nat.sub_self]
    rfl
  · rw [runAll_append, runAll_cons, environment]
    rfl

/-- In a run whose guards are properly nested, every use comes to what it comes to in a new
environment with the providers of the guards that are open, in the order in which they were entered,
and with the scope and the context that were set last. Each guard that is left has restored the
providers that were there before it was opened, and has left alone what was set inside. A function
that is run with providers finds these on top, asks the last one first, and leaves the environment
as it was. -/
theorem runs_afresh (nested : Nested uses) (e : Environment) (s : Store) :
    (∀ before use rest, uses = before ++ use :: rest →
      (∃ ps, Open before ps) ∧ ∀ ps, Open before ps → AsAfresh e s before use rest ps) ∧
    (∀ before rest, uses = before ++ leave :: rest →
      ∃ earlier p inside, before = earlier ++ enter p :: inside ∧ Closed inside) ∧
    (∀ before p inside, Closed inside →
      e.after (before ++ enter p :: (inside ++ [leave])) =
        { e.after (before ++ enter p :: inside) with providers := (e.after before).providers }) ∧
    ∀ {α : Type} (run : Environment → α) (ps : List Provider),
      e.withProviders run ps = (run (e.enterAll ps), e) ∧
        e.enterAll ps = { e with providers := ps.reverse ++ e.providers } ∧
        ∀ name, (e.enterAll ps).ask name =
          Environment.askInTurn ((e.enterAll ps).query name) (ps.reverse ++ e.providers) := by
  obtain ⟨more, closed⟩ := nested
  refine ⟨?_, ?_, ?_, ?_⟩
  · rintro before use rest rfl
    have start : before <+: before ++ use :: rest ++ more := by
      rw [List.append_assoc]
      exact List.prefix_append _ _
    exact ⟨closed.exists_open start, fun ps opened => opened.asAfresh e s use rest⟩
  · rintro before rest rfl
    rw [List.append_assoc] at closed
    exact closed.exists_enter rfl
  · exact fun before p inside block => e.after_guard block before p
  · intro α run ps
    have providers := e.enterAll_eq ps
    refine ⟨e.withProviders_eq run ps, providers, fun name => ?_⟩
    rw [Environment.ask, providers]

def outerBinding : BindingMap := .bind .empty Rewriting.firstName.1 ⟨.void, .none⟩

def innerBinding : BindingMap := .bind .empty Rewriting.firstName.1 ⟨.void, .single .const⟩

def setsInside : List Use :=
  [enter (.ofBindings innerBinding), switchScope (some ⟨4⟩), apply Rewriting.firstName.1, leave]

/-- A name that is bound twice is asked for inside both guards, where the scope is set, and again
when the inner guard is closed. -/
def askedTwice : List Use :=
  enter (.ofBindings outerBinding) :: (setsInside ++ [apply Rewriting.firstName.1])

theorem closed_setsInside : Closed setsInside :=
  .guard _ (.keep trivial (.keep trivial .nil) :
    Closed [switchScope (some ⟨4⟩), apply Rewriting.firstName.1])

theorem nested_askedTwice : Nested askedTwice := by
  have asks : Closed [apply Rewriting.firstName.1] := .keep trivial .nil
  exact ⟨[leave], (closed_setsInside.append asks).guard (.ofBindings outerBinding)⟩

theorem runs_afresh_askedTwice :
    (runAll askedTwice .new Rewriting.firstNamed.2).1[5]? = some (.reply ⟨⟨.void, .none⟩, 1⟩) ∧
      Environment.new.after (enter (.ofBindings outerBinding) :: setsInside) =
        { providers := [.ofBindings outerBinding], scope := some ⟨4⟩ } := by
  have opened : Open (enter (.ofBindings outerBinding) :: setsInside) [.ofBindings outerBinding] :=
    .within _ .nil (.none closed_setsInside)
  obtain ⟨-, again⟩ := (runs_afresh nested_askedTwice .new Rewriting.firstNamed.2).1
    (enter (.ofBindings outerBinding) :: setsInside) (apply Rewriting.firstName.1) [] rfl
  have again := again _ opened
  have bound : outerBinding.get? Rewriting.firstName.1 = some ⟨.void, .none⟩ :=
    (BindingMap.get?_bind ..).trans (if_pos rfl)
  have asked (t : Store) : (Environment.new.afresh (enter (.ofBindings outerBinding) :: setsInside)
      [.ofBindings outerBinding]).ask Rewriting.firstName.1 t = (⟨⟨.void, .none⟩, 1⟩, t) :=
    Environment.ask_of_bound rfl bound rfl
  refine ⟨again.outcome.trans (congrArg some ?_), again.environment⟩
  exact (outcome_apply ..).trans (congrArg (fun asked => Outcome.reply asked.1) (asked _))

end Use
end Respell

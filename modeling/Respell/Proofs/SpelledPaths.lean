import Mathlib.Data.List.DropRight
import Respell.Proofs.Acceptance

/-! Paths of components as names. A spelled name is split into its parts and nested to the left,
while a name that is written as a base and a member keeps the shape that it is written in. Both
print alike. Main statements: joining components and splitting again gives the components back
(`Text.splitPath_joinPath`), a spelled name is the path of its parts (`spelledName_eq_ok`), and a
way of writing a path comes to the name that is spelled in one text exactly when it adds the
components one by one (`writing_matches_iff`). -/
namespace Respell

/-! ### Splitting and trimming -/

namespace Text

theorem trim_trim (cs : List Char) : trim (trim cs) = trim cs := by
  -- Trimming the right end leaves the left end as it is.
  have left : trimLeft (trim cs) = trim cs := by
    refine List.dropWhile_eq_self_iff.mpr fun nonempty => ?_
    obtain ⟨rest, whole⟩ : trim cs <+: trimLeft cs := List.rdropWhile_prefix isBlank (trimLeft cs)
    have first : (trimLeft cs)[0]? = some ((trim cs)[0]) := by
      rw [← whole, List.getElem?_append_left nonempty, List.getElem?_eq_getElem nonempty]
    obtain ⟨inside, same⟩ := List.getElem?_eq_some_iff.mp first
    exact same ▸ List.dropWhile_get_zero_not isBlank cs inside
  have right : trimRight (trim cs) = trim cs := List.rdropWhile_idempotent isBlank (trimLeft cs)
  rw [trim, left, right]

theorem not_infix_cons {c : Char} {cs : List Char} : ¬ [':', ':'] <:+: c :: cs ↔
    (∀ after, c = ':' → cs = ':' :: after → False) ∧ ¬ [':', ':'] <:+: cs := by
  rw [List.infix_cons_iff, not_or]
  refine and_congr_left' ⟨?_, ?_⟩
  · rintro notHere after rfl rfl
    exact notHere ⟨after, rfl⟩
  · rintro apart ⟨after, same⟩
    obtain ⟨rfl, rfl⟩ := List.cons.inj same
    exact apart after rfl rfl

/-- Whether a text starts with a separator does not depend on what comes behind a later colon. -/
theorem apart_append {c : Char} {cs less more : List Char}
    (apart : ∀ after, c = ':' → cs ++ ':' :: less = ':' :: after → False) (after : List Char)
    (colon : c = ':') (same : cs ++ ':' :: more = ':' :: after) : False := by
  cases cs with
  | nil => exact apart less colon rfl
  | cons d cs =>
    obtain ⟨rfl, -⟩ := List.cons.inj same
    exact apart (cs ++ ':' :: less) colon rfl

theorem splitPath_eq_singleton {cs : List Char} (single : ¬ [':', ':'] <:+: cs) :
    splitPath cs = [cs] := by
  induction cs with
  | nil => rfl
  | cons c cs ih =>
    obtain ⟨apart, single⟩ := not_infix_cons.mp single
    rw [splitPath, ih single]
    exact apart

/-- A part ends at the first separator behind it. -/
theorem splitPath_append_separator {cs : List Char} (first : ¬ [':', ':'] <:+: cs ++ [':'])
    (rest : List Char) : splitPath (cs ++ ':' :: ':' :: rest) = cs :: splitPath rest := by
  induction cs with
  | nil => rfl
  | cons c cs ih =>
    obtain ⟨apart, first⟩ := not_infix_cons.mp first
    rw [List.cons_append, splitPath, ih first]
    exact apart_append apart

theorem not_infix_of_not_mem {cs : List Char} (single : ':' ∉ cs) : ¬ [':', ':'] <:+: cs ++ [':'] := by
  intro twice
  have count := twice.sublist.count_le ':'
  rw [List.count_append, List.count_eq_zero.mpr single] at count
  exact absurd count (by decide)

theorem splitPath_joinPath {parts : List String} (filled : parts ≠ [])
    (single : ∀ part ∈ parts, ':' ∉ part.toList) :
    splitPath (joinPath parts).toList = parts.map String.toList := by
  induction parts with
  | nil => contradiction
  | cons part rest ih =>
    obtain ⟨here, later⟩ := List.forall_mem_cons.mp single
    have apart := not_infix_of_not_mem here
    cases rest with
    | nil =>
      rw [joinPath, String.intercalate_singleton, List.map_singleton]
      exact splitPath_eq_singleton fun twice => apart (List.infix_append_of_infix_left twice)
    | cons next others =>
      have split := ih (List.cons_ne_nil next others) later
      have joined : (joinPath (part :: next :: others)).toList =
          part.toList ++ ':' :: ':' :: (joinPath (next :: others)).toList := by
        simp [joinPath, String.intercalate_cons_cons]
      rw [joined, splitPath_append_separator apart, split, List.map_cons (l := next :: others)]

end Text

/-! ### What a spelled name means -/

/-- What a part of a spelled name stands for: a destructor where it starts with a tilde, and an
identifier anywhere else. -/
def pieceTree (part : List Char) : Tree .name :=
  match Text.trim part with
  | '~' :: text => .destructor (String.ofList (Text.trim text))
  | text => .identifier (String.ofList text)

theorem pieceTree_of_tilde {part text : List Char} (shape : Text.trim part = '~' :: text) :
    pieceTree part = .destructor (String.ofList (Text.trim text)) := by
  simp only [pieceTree, shape]

theorem pieceTree_of_no_tilde {part : List Char}
    (shape : ∀ text, Text.trim part = '~' :: text → False) :
    pieceTree part = .identifier (String.ofList (Text.trim part)) := by
  unfold pieceTree
  split <;> rename_i tilde
  · exact (shape _ tilde).elim
  · rfl

theorem spelledPart_eq_ok {part : List Char} (single : Text.hasSeparator part = false)
    (filled : Text.trim (Text.withoutTilde (Text.trim part)) ≠ []) :
    spelledPart part = .ok (pieceTree part) := by
  obtain ⟨tree, spelled⟩ := (succeeds_spelledPart single).mpr filled
  have read := spelled
  unfold spelledPart at read
  split at read <;> rename_i shape
  · obtain ⟨name, named, rfl⟩ := map_eq_ok.mp read
    rw [spelled, pieceTree_of_tilde shape, component_eq_ok named]
  · obtain ⟨name, named, rfl⟩ := map_eq_ok.mp read
    rw [spelled, pieceTree_of_no_tilde shape, component_eq_ok named, Text.trim_trim]

theorem pieceTree_ne_qualified (part : List Char) (base member : Tree .name) :
    pieceTree part ≠ .qualified base member := by
  rw [pieceTree]
  split <;> exact fun same => nomatch same

/-- The parts of a name, each qualified by all those before it. -/
def pathTree : List (List Char) → Tree .name
  | [] => .identifier ""
  | first :: rest => rest.foldl (fun base part => .qualified base (pieceTree part)) (pieceTree first)

theorem pathTree_concat {parts : List (List Char)} (filled : parts ≠ []) (last : List Char) :
    pathTree (parts ++ [last]) = .qualified (pathTree parts) (pieceTree last) := by
  cases parts with
  | nil => contradiction
  | cons first rest => simp [pathTree]

theorem print_pathTree (spell : SymbolId → Option String) {parts : List (List Char)}
    (filled : parts ≠ []) : (pathTree parts).print spell =
      Text.joinPath (parts.map fun part => (pieceTree part).print spell) := by
  induction parts using List.reverseRecOn with
  | nil => contradiction
  | append_singleton parts last ih =>
    by_cases more : parts = []
    · simp [more, pathTree, Text.joinPath]
    · have others : parts.map (fun part => (pieceTree part).print spell) ≠ [] :=
        List.map_eq_nil_iff.not.mpr more
      rw [pathTree_concat more, Tree.print, ih more, List.map_append, List.map_singleton,
        Text.joinPath, Text.joinPath,
        String.intercalate_append_of_ne_nil others (List.cons_ne_nil _ _),
        String.intercalate_singleton]

theorem qualifyAll_eq_ok {parts : List (List Char)}
    (spelled : ∀ part ∈ parts, spelledPart part = .ok (pieceTree part)) (base : Tree .name) :
    qualifyAll base parts =
      .ok (parts.foldl (fun base part => .qualified base (pieceTree part)) base) := by
  induction parts generalizing base with
  | nil => rfl
  | cons part rest ih =>
    obtain ⟨here, later⟩ := List.forall_mem_cons.mp spelled
    rw [qualifyAll, here, List.foldl_cons]
    exact ih later _

/-- A spelled name is the path of its parts. -/
theorem spelledName_eq_ok {text : List Char}
    (filled : ∀ part ∈ Text.splitPath text, Text.trim (Text.withoutTilde (Text.trim part)) ≠ []) :
    spelledName text = .ok (pathTree (Text.splitPath text)) := by
  have spelled : ∀ part ∈ Text.splitPath text, spelledPart part = .ok (pieceTree part) :=
    fun part mem => spelledPart_eq_ok (Text.hasSeparator_of_mem_splitPath mem) (filled part mem)
  rw [spelledName]
  split <;> rename_i split
  · exact absurd split (Text.splitPath_ne_nil text)
  · rw [split] at spelled ⊢
    obtain ⟨here, later⟩ := List.forall_mem_cons.mp spelled
    rw [here]
    exact qualifyAll_eq_ok later _

/-! ### Ways of writing a path -/

/-- A text that can stand as a component of a spelled name: it has no colon and no blank at either
end, and something is left of it without a leading tilde. -/
structure IsPathComponent (text : String) : Prop where
  single : ':' ∉ text.toList
  trimmed : Text.trim text.toList = text.toList
  filled : Text.trim (Text.withoutTilde text.toList) ≠ []

instance (text : String) : Decidable (IsPathComponent text) :=
  decidable_of_iff (':' ∉ text.toList ∧ Text.trim text.toList = text.toList ∧
      Text.trim (Text.withoutTilde text.toList) ≠ [])
    ⟨fun h => ⟨h.1, h.2.1, h.2.2⟩, fun h => ⟨h.single, h.trimmed, h.filled⟩⟩

theorem spelledName_joinPath {parts : List String} (filled : parts ≠ [])
    (valid : ∀ part ∈ parts, IsPathComponent part) :
    spelledName (Text.joinPath parts).toList = .ok (pathTree (parts.map String.toList)) := by
  have split := Text.splitPath_joinPath filled fun part mem => (valid part mem).single
  have spelled := @spelledName_eq_ok (Text.joinPath parts).toList
  rw [split] at spelled
  refine spelled fun part mem => ?_
  obtain ⟨text, known, rfl⟩ := List.mem_map.mp mem
  rw [(valid text known).trimmed]
  exact (valid text known).filled

/-- A way of writing a path of components: it is spelled in one text, or taken apart into a base and
a member that are written in their own ways. -/
inductive Writing
  | text (first : String) (rest : List String)
  | qualified (base member : Writing)

namespace Writing

def components : Writing → List String
  | text first rest => first :: rest
  | qualified base member => base.components ++ member.components

def expr : Writing → Expr .name
  | text first rest => .spelled (Text.joinPath (first :: rest))
  | qualified base member => .qualified base.expr member.expr

/-- Every member is a single component. -/
def OneByOne : Writing → Prop
  | text _ _ => True
  | qualified base member => base.OneByOne ∧ member.components.length = 1

def tree : Writing → Tree .name
  | text first rest => pathTree ((first :: rest).map String.toList)
  | qualified base member => .qualified base.tree member.tree

theorem components_ne_nil (w : Writing) : w.components ≠ [] := by
  induction w with
  | text => exact List.cons_ne_nil _ _
  | qualified base member ih => exact List.append_ne_nil_of_left_ne_nil ih _

theorem meaning_expr {w : Writing} (valid : ∀ c ∈ w.components, IsPathComponent c) :
    w.expr.meaning = .ok w.tree := by
  induction w with
  | text first rest =>
    rw [expr, Expr.meaning, mapError_eq_ok]
    exact spelledName_joinPath (List.cons_ne_nil first rest) valid
  | qualified base member ihBase ihMember =>
    obtain ⟨left, right⟩ := List.forall_mem_append.mp valid
    rw [expr, Expr.meaning, ihBase left, ihMember right]
    rfl

theorem print_tree (spell : SymbolId → Option String) (w : Writing) : w.tree.print spell =
    Text.joinPath (w.components.map fun c => (pieceTree c.toList).print spell) := by
  induction w with
  | text first rest =>
    have printed := print_pathTree spell (List.cons_ne_nil first.toList (rest.map String.toList))
    simpa [tree, components, Function.comp_def] using printed
  | qualified base member ihBase ihMember =>
    rw [tree, Tree.print, ihBase, ihMember, components, List.map_append, Text.joinPath,
      Text.joinPath, Text.joinPath, String.intercalate_append_of_ne_nil]
    · exact List.map_eq_nil_iff.not.mpr base.components_ne_nil
    · exact List.map_eq_nil_iff.not.mpr member.components_ne_nil

/-- What is written as a single piece is a single component. -/
theorem length_components_of_tree {w : Writing} {part : List Char} (single : w.tree = pieceTree part) :
    w.components.length = 1 := by
  cases w with
  | qualified base member => exact absurd single.symm (pieceTree_ne_qualified part _ _)
  | text first rest =>
    cases rest using List.reverseRecOn with
    | nil => rfl
    | append_singleton others last =>
      have compound := pathTree_concat (List.cons_ne_nil first.toList (others.map String.toList))
        last.toList
      rw [tree, List.map_cons, List.map_append] at single
      exact absurd (single.symm.trans compound) (pieceTree_ne_qualified part _ _)

theorem tree_of_length_components {w : Writing} (single : w.components.length = 1) :
    w.tree = pathTree (w.components.map String.toList) := by
  cases w with
  | text first rest => rfl
  | qualified base member =>
    have left := List.length_pos_iff.mpr base.components_ne_nil
    have right := List.length_pos_iff.mpr member.components_ne_nil
    rw [components, List.length_append] at single
    omega

/-- A way of writing a path nests to the left, as spelling does, when it adds the components one by
one. -/
theorem tree_eq_iff {w : Writing} :
    w.tree = pathTree (w.components.map String.toList) ↔ w.OneByOne := by
  induction w with
  | text first rest => exact iff_of_true rfl trivial
  | qualified base member ih _ =>
    have filled : base.components.map String.toList ≠ [] :=
      List.map_eq_nil_iff.not.mpr base.components_ne_nil
    rw [tree, OneByOne, ← ih, components, List.map_append]
    constructor
    · -- The path ends in one component, so the member is that one and no others.
      intro same
      obtain ⟨others, last, ends⟩ :=
        (List.eq_nil_or_concat' (member.components.map String.toList)).resolve_left
          (List.map_eq_nil_iff.not.mpr member.components_ne_nil)
      rw [ends, ← List.append_assoc,
        pathTree_concat (List.append_ne_nil_of_left_ne_nil filled others)] at same
      obtain ⟨left, right⟩ := Tree.qualified.inj same
      have single := length_components_of_tree right
      have count := congrArg List.length ends
      rw [List.length_map, single, List.length_append, List.length_singleton] at count
      have nothing : others = [] := List.length_eq_zero_iff.mp (by omega)
      rw [nothing, List.append_nil] at left
      exact ⟨left, single⟩
    · rintro ⟨left, single⟩
      obtain ⟨last, only⟩ := List.length_eq_one_iff.mp single
      rw [left, tree_of_length_components single, only]
      exact (pathTree_concat filled last.toList).symm

end Writing

/-! ### Handles -/

/-- The two names are interned, the one some time after the other, and these are their handles. -/
def Tree.Interned (a b : Tree .name) (n n' : NameId) : Prop :=
  (∃ s t : Store, (a.intern s).2.Extends t ∧ n = (a.intern s).1 ∧ n' = (b.intern t).1) ∨
    ∃ s t : Store, (b.intern s).2.Extends t ∧ n' = (b.intern s).1 ∧ n = (a.intern t).1

theorem Tree.Interned.eq_iff {a b : Tree .name} (plain : a.Plain) (plain' : b.Plain)
    {n n' : NameId} (h : a.Interned b n n') : n = n' ↔ a = b := by
  have both : ∃ t : Store, t.Denotes True a n ∧ t.Denotes True b n' := by
    rcases h with ⟨s, t, later, rfl, rfl⟩ | ⟨s, t, later, rfl, rfl⟩
    · have first := (@Store.yields_intern True _ a plain s s (.refl s)).2
      have second := @Store.yields_intern True _ b plain' t t (.refl t)
      exact ⟨_, first.extend (later.trans second.1), second.2⟩
    · have first := (@Store.yields_intern True _ b plain' s s (.refl s)).2
      have second := @Store.yields_intern True _ a plain t t (.refl t)
      exact ⟨_, second.2, first.extend (later.trans second.1)⟩
  obtain ⟨t, one, other⟩ := both
  constructor
  · rintro rfl
    exact one.reads.symm.trans other.reads
  · rintro rfl
    exact one.unique other

theorem BindingMap.get?_bind_empty_iff {n n' : NameId} {type : QualType} :
    (empty.bind n type).get? n' = some type ↔ n = n' := by
  rw [get?_bind, get?_empty]
  split <;> rename_i same
  · exact iff_of_true rfl same
  · exact iff_of_false (fun h => nomatch h) same

/-- However a path is written, it has a meaning and prints as the path spelled in one text does. The
two have the same handle, so that a binding of the one is found for the other, exactly when the path
is written with members of one component only. -/
theorem writing_matches_iff {w : Writing} (valid : ∀ c ∈ w.components, IsPathComponent c) :
    ∃ written whole : Tree .name, w.expr.meaning = .ok written ∧
      (Expr.spelled (Text.joinPath w.components)).meaning = .ok whole ∧
      (∀ spell, written.print spell = whole.print spell) ∧
      ∀ n n', written.Interned whole n n' → (n = n' ↔ w.OneByOne) ∧
        ∀ type, ((BindingMap.empty.bind n type).get? n' = some type ↔ w.OneByOne) ∧
          ((BindingMap.empty.bind n' type).get? n = some type ↔ w.OneByOne) := by
  obtain ⟨first, rest, path⟩ := List.exists_cons_of_ne_nil w.components_ne_nil
  have whole : (Writing.text first rest).components = w.components := path.symm
  have written := w.meaning_expr valid
  have spelled := (Writing.text first rest).meaning_expr (whole ▸ valid)
  refine ⟨w.tree, (Writing.text first rest).tree, written, ?_, fun spell => ?_, ?_⟩
  · rw [path]
    exact spelled
  · rw [w.print_tree, Writing.print_tree, whole]
  · intro n n' interned
    have same : n = n' ↔ w.OneByOne := by
      rw [interned.eq_iff (Expr.plain_of_meaning written) (Expr.plain_of_meaning spelled),
        ← w.tree_eq_iff, path]
      rfl
    refine ⟨same, fun type => ⟨?_, ?_⟩⟩
    · rw [BindingMap.get?_bind_empty_iff, same]
    · rw [BindingMap.get?_bind_empty_iff, eq_comm, same]

/-- The path `a::~b::c`, of which only the last component is a member. -/
def lastApart : Writing := .qualified (.text "a" ["~b"]) (.text "c" [])

theorem writing_matches_iff_lastApart :
    (∀ c ∈ lastApart.components, IsPathComponent c) ∧ lastApart.components = ["a", "~b", "c"] ∧
      ∃ written whole : Tree .name, lastApart.expr.meaning = .ok written ∧
        (Expr.spelled (Text.joinPath ["a", "~b", "c"])).meaning = .ok whole ∧
        ∀ n n', written.Interned whole n n' → n = n' := by
  have valid : ∀ c ∈ lastApart.components, IsPathComponent c := by decide
  obtain ⟨written, whole, one, other, -, handles⟩ := writing_matches_iff valid
  exact ⟨valid, rfl, written, whole, one, other, fun n n' interned =>
    (handles n n' interned).1.mpr ⟨trivial, rfl⟩⟩

/-- The path `a::b::c`, of which two components are one member. -/
def compoundMember : Writing := .qualified (.text "a" []) (.text "b" ["c"])

/-- The path prints as it does in one text, but it has a handle of its own, and a binding of the
spelled name is not found for it. -/
theorem compoundMember_differs :
    (∀ c ∈ compoundMember.components, IsPathComponent c) ∧
      compoundMember.components = ["a", "b", "c"] ∧
      ∃ written whole : Tree .name, compoundMember.expr.meaning = .ok written ∧
        (Expr.spelled (Text.joinPath ["a", "b", "c"])).meaning = .ok whole ∧
        (∀ spell, written.print spell = whole.print spell) ∧
        (whole.intern .initial).1 ≠ (written.intern (whole.intern .initial).2).1 ∧
        (BindingMap.empty.bind (whole.intern .initial).1 .undefined).get?
          (written.intern (whole.intern .initial).2).1 = none := by
  have valid : ∀ c ∈ compoundMember.components, IsPathComponent c := by decide
  have written := compoundMember.meaning_expr valid
  have spelled := (Writing.text "a" ["b", "c"]).meaning_expr valid
  refine ⟨valid, rfl, _, _, written, spelled, fun spell => ?_, ?_⟩
  · rw [Writing.print_tree, Writing.print_tree]
    rfl
  · have interned : compoundMember.tree.Interned (Writing.text "a" ["b", "c"]).tree _ _ :=
      .inr ⟨.initial, _, .refl _, rfl, rfl⟩
    have differ := (interned.eq_iff (Expr.plain_of_meaning written)
      (Expr.plain_of_meaning spelled)).not.mpr (by decide)
    refine ⟨Ne.symm differ, ?_⟩
    rw [BindingMap.get?_bind, if_neg (Ne.symm differ), BindingMap.get?_empty]

end Respell

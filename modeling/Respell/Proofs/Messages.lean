import Mathlib.Data.List.Infix
import Respell.Diagnostic

/-! Messages with placeholders. A message is filled when every placeholder of an argument has become
this argument, all at once, and everything else is kept; the passes of `fill` go over the text made
so far instead. Main statements: a filled text exists and is the only one (`exists_filled`,
`Filled.unique`); the passes make it wherever no later placeholder can touch an inserted argument,
and they make it for all arguments of a template exactly when the template has none but the
placeholder of the last argument (`filled_fill_iff`). -/
namespace Respell

namespace Text

variable {pattern replacement taken rest : List Char} {c : Char}

theorem replaceFrom_skip (pattern replacement taken rest : List Char) :
    replaceFrom pattern replacement taken.length (taken ++ rest) =
      replaceAll pattern replacement rest := by
  induction taken with
  | nil => rfl
  | cons c taken ih => exact ih

theorem replaceAll_append (nonempty : pattern ≠ []) (replacement rest : List Char) :
    replaceAll pattern replacement (pattern ++ rest) =
      replacement ++ replaceAll pattern replacement rest := by
  obtain ⟨c, cs, rfl⟩ := List.exists_cons_of_ne_nil nonempty
  have starts : (c :: cs).isPrefixOf (c :: (cs ++ rest)) = true :=
    List.isPrefixOf_iff_prefix.mpr (List.prefix_append (c :: cs) rest)
  rw [List.cons_append, replaceAll, replaceFrom, if_pos starts, List.length_cons,
    Nat.add_sub_cancel, replaceFrom_skip]

theorem replaceAll_cons (apart : ¬ pattern <+: c :: rest) (replacement : List Char) :
    replaceAll pattern replacement (c :: rest) = c :: replaceAll pattern replacement rest := by
  rw [replaceAll, replaceFrom, if_neg (List.isPrefixOf_iff_prefix.not.mpr apart), replaceAll]

/-- A replacement keeps what stands before the first place at which the pattern may start. -/
theorem replaceAll_keep (replacement : List Char)
    (apart : ∀ before after, before.length < taken.length →
      taken ++ rest ≠ before ++ pattern ++ after) :
    replaceAll pattern replacement (taken ++ rest) =
      taken ++ replaceAll pattern replacement rest := by
  induction taken with
  | nil => rfl
  | cons c taken ih =>
    have here : ¬ pattern <+: c :: (taken ++ rest) := by
      rintro ⟨after, whole⟩
      exact apart [] after (by simp) whole.symm
    have inside := ih fun before after short whole =>
      apart (c :: before) after (by simpa using short) (by simp [whole])
    rw [List.cons_append, replaceAll_cons here, inside, List.cons_append]

end Text

namespace Message

open Text

/-! ### Placeholders -/

/-- The place that a template leaves for the argument of a number. -/
def hole (number : Nat) : List Char := (placeholder number).toList

theorem hole_eq (number : Nat) :
    hole number = '\x7b' :: (Nat.toDigits 10 number ++ ['\x7d']) := by
  simp [hole, placeholder]

theorem isDigit_of_mem_digits {c : Char} {number : Nat} (mem : c ∈ Nat.toDigits 10 number) :
    c.isDigit = true :=
  Nat.isDigit_of_mem_toDigits (by omega) (by omega) mem

theorem hole_ne_nil (number : Nat) : hole number ≠ [] := by
  simp [hole_eq]

theorem eq_of_hole_prefix_cons {number : Nat} {c : Char} {cs : List Char}
    (starts : hole number <+: c :: cs) : c = '\x7b' := by
  rw [hole_eq, List.cons_prefix_cons] at starts
  exact starts.1.symm

/-- A text starts with one placeholder at most. -/
theorem eq_of_holes_prefix {i j : Nat} {text : List Char} (one : hole i <+: text)
    (other : hole j <+: text) : i = j := by
  have word (number : Nat) (after : List Char) :
      (Nat.toDigits 10 number ++ '\x7d' :: after).takeWhile Char.isDigit =
        Nat.toDigits 10 number := by
    rw [List.takeWhile_append_of_pos fun c mem => isDigit_of_mem_digits mem,
      List.takeWhile_cons_of_neg (by decide), List.append_nil]
  obtain ⟨after, rfl⟩ := one
  obtain ⟨after', same⟩ := other
  simp only [hole_eq, List.cons_append, List.append_assoc, List.cons.injEq, true_and,
    List.nil_append] at same
  have digits : Nat.toDigits 10 j = Nat.toDigits 10 i := by
    rw [← word j after', same, word i after]
  have numbers := congrArg (Nat.ofDigitChars 10 · 0) digits
  simpa using numbers.symm

/-- No placeholder starts inside another one. -/
theorem eq_of_hole_prefix_append {i j : Nat} {start rest : List Char} (inside : start <:+ hole j)
    (nonempty : start ≠ []) (starts : hole i <+: start ++ rest) : i = j := by
  rw [hole_eq, List.suffix_cons_iff] at inside
  rcases inside with rfl | inside
  · rw [← hole_eq] at starts
    exact eq_of_holes_prefix starts (List.prefix_append _ _)
  · obtain ⟨c, cs, rfl⟩ := List.exists_cons_of_ne_nil nonempty
    obtain rfl := eq_of_hole_prefix_cons starts
    rcases List.mem_append.mp (inside.subset List.mem_cons_self) with mem | mem
    · exact absurd (isDigit_of_mem_digits mem) (by decide)
    · exact absurd (List.mem_singleton.mp mem) (by decide)

/-! ### Filled texts -/

/-- The second text is the first one with every placeholder of a number that has a piece replaced by
this piece, all at once, and with every other character kept. -/
inductive Filled (piece : Nat → Option (List Char)) : List Char → List Char → Prop
  | nil : Filled piece [] []
  | insert {number : Nat} {inserted rest out : List Char} (given : piece number = some inserted)
      (filled : Filled piece rest out) : Filled piece (hole number ++ rest) (inserted ++ out)
  | keep {c : Char} {rest out : List Char}
      (kept : ∀ number, (piece number).isSome → ¬ hole number <+: c :: rest)
      (filled : Filled piece rest out) : Filled piece (c :: rest) (c :: out)

/-- The pieces that a list of arguments gives. -/
def pieces (arguments : List String) (number : Nat) : Option (List Char) :=
  arguments[number]?.map String.toList

variable {piece more : Nat → Option (List Char)} {number other : Nat}
  {inserted text rest out out' : List Char} {c : Char}

theorem Filled.of_hole (filled : Filled piece (hole number ++ rest) text)
    (given : piece number = some inserted) :
    ∃ out, text = inserted ++ out ∧ Filled piece rest out := by
  generalize whole : hole number ++ rest = template at filled
  cases filled with
  | nil => exact absurd (List.append_eq_nil_iff.mp whole).1 (hole_ne_nil number)
  | @insert number' inserted' rest' out given' filled =>
    obtain rfl : number = number' :=
      eq_of_holes_prefix ⟨rest, whole⟩ (List.prefix_append _ _)
    obtain rfl : inserted = inserted' := Option.some.inj (given.symm.trans given')
    obtain rfl : rest = rest' := List.append_cancel_left whole
    exact ⟨out, rfl, filled⟩
  | keep kept filled => exact absurd ⟨rest, whole⟩ (kept number (by simp [given]))

theorem Filled.of_char (filled : Filled piece (c :: rest) text)
    (kept : ∀ number, (piece number).isSome → ¬ hole number <+: c :: rest) :
    ∃ out, text = c :: out ∧ Filled piece rest out := by
  generalize whole : c :: rest = template at filled
  cases filled with
  | nil => contradiction
  | @insert number inserted rest' out given filled =>
    exact absurd ⟨rest', whole.symm⟩ (kept number (by simp [given]))
  | keep kept' filled =>
    obtain ⟨rfl, rfl⟩ := List.cons.inj whole
    exact ⟨_, rfl, filled⟩

theorem Filled.unique (filled : Filled piece text out) (filled' : Filled piece text out') :
    out = out' := by
  induction filled generalizing out' with
  | nil =>
    generalize whole : ([] : List Char) = template at filled'
    cases filled' with
    | nil => rfl
    | insert given filled => exact absurd (List.append_eq_nil_iff.mp whole.symm).1 (hole_ne_nil _)
    | keep kept filled => contradiction
  | insert given filled ih =>
    obtain ⟨out, rfl, after⟩ := filled'.of_hole given
    rw [ih after]
  | keep kept filled ih =>
    obtain ⟨out, rfl, after⟩ := filled'.of_char kept
    rw [ih after]

theorem exists_filled (piece : Nat → Option (List Char)) (template : List Char) :
    ∃ out, Filled piece template out := by
  induction size : template.length using Nat.strong_induction_on generalizing template with
  | _ size ih =>
    subst size
    cases template with
    | nil => exact ⟨[], .nil⟩
    | cons c rest =>
      by_cases starts : ∃ number, (piece number).isSome ∧ hole number <+: c :: rest
      · obtain ⟨number, given, rest', whole⟩ := starts
        obtain ⟨inserted, given⟩ := Option.isSome_iff_exists.mp given
        have positive := List.length_pos_of_ne_nil (hole_ne_nil number)
        obtain ⟨out, filled⟩ := ih rest'.length
          (by rw [← whole, List.length_append]; omega) rest' rfl
        rw [← whole]
        exact ⟨_, .insert given filled⟩
      · obtain ⟨out, filled⟩ := ih rest.length (by simp) rest rfl
        exact ⟨_, .keep (fun number given occurs => starts ⟨number, given, occurs⟩) filled⟩

theorem filled_of_free (free : ∀ number, piece number = none) (text : List Char) :
    Filled piece text text := by
  induction text with
  | nil => exact .nil
  | cons c text ih => exact .keep (fun number given => by simp [free] at given) ih

/-- A placeholder of the template without a piece is copied. -/
theorem Filled.copy (filled : Filled piece (hole number ++ rest) text)
    (free : piece number = none) : ∃ out, text = hole number ++ out ∧ Filled piece rest out := by
  have copies : ∀ start, start <:+ hole number → ∀ text,
      Filled piece (start ++ rest) text → ∃ out, text = start ++ out ∧ Filled piece rest out := by
    intro start
    induction start with
    | nil => exact fun _ text filled => ⟨text, rfl, filled⟩
    | cons c start ih =>
      intro inside text filled
      have kept : ∀ i, (piece i).isSome → ¬ hole i <+: c :: (start ++ rest) := by
        intro i given starts
        obtain rfl := eq_of_hole_prefix_append inside (List.cons_ne_nil c start) starts
        simp [free] at given
      obtain ⟨out, rfl, after⟩ := filled.of_char kept
      obtain ⟨out', rfl, behind⟩ := ih ((List.suffix_cons c start).trans inside) out after
      exact ⟨out', rfl, behind⟩
  exact copies _ List.suffix_rfl text filled

theorem Filled.inserted_infix (filled : Filled piece text out)
    (given : piece number = some inserted) (occurs : hole number <:+: text) :
    inserted <:+: out := by
  induction filled with
  | nil => exact absurd (List.infix_nil.mp occurs) (hole_ne_nil number)
  | @insert number' inserted' rest out given' filled ih =>
    by_cases same : number = number'
    · obtain rfl : inserted = inserted' := Option.some.inj (given.symm.trans (same ▸ given'))
      exact (List.prefix_append _ _).isInfix
    · suffices hole number <:+: rest from (ih this).trans (List.suffix_append _ _).isInfix
      have later : ∀ start, start <:+ hole number' →
          hole number <:+: start ++ rest → hole number <:+: rest := by
        intro start
        induction start with
        | nil => exact fun _ occurs => occurs
        | cons c start ih =>
          intro inside occurs
          rcases List.infix_cons_iff.mp occurs with starts | occurs
          · exact absurd (eq_of_hole_prefix_append inside (List.cons_ne_nil c start) starts) same
          · exact ih ((List.suffix_cons c start).trans inside) occurs
      exact later _ List.suffix_rfl occurs
  | @keep c rest out kept filled ih =>
    rcases List.infix_cons_iff.mp occurs with starts | occurs
    · exact absurd starts (kept number (by simp [given]))
    · exact (ih occurs).trans (List.suffix_cons c out).isInfix

/-! ### Pieces that stand apart -/

/-- Wherever the piece is inserted, an occurrence of the pattern ends before it or starts behind
it. -/
def Apart (pattern piece : List Char) : Prop :=
  ∀ before after start rest, before ++ piece ++ after = start ++ pattern ++ rest →
    start.length + pattern.length ≤ before.length ∨
      before.length + piece.length ≤ start.length

theorem Apart.infix_append (apart : Apart (hole number) inserted)
    (occurs : hole number <:+: inserted ++ out) : hole number <:+: out := by
  obtain ⟨start, rest, whole⟩ := occurs
  rcases apart [] out start rest (by simpa using whole.symm) with short | behind
  · have positive := List.length_pos_of_ne_nil (hole_ne_nil number)
    simp only [List.length_nil] at short
    omega
  · have starts : start <+: inserted ++ out := ⟨hole number ++ rest, by rw [← whole, List.append_assoc]⟩
    obtain ⟨between, rfl⟩ : inserted <+: start :=
      List.prefix_of_prefix_length_le (List.prefix_append _ _) starts (by simpa using behind)
    refine ⟨between, rest, ?_⟩
    simpa only [List.append_assoc, List.append_cancel_left_eq] using whole

/-- A placeholder at the start of what is filled in was there before, when all pieces stand apart
from it. -/
theorem Filled.hole_prefix (filled : Filled piece text out)
    (apart : ∀ i inserted, piece i = some inserted → hole i <:+: text → Apart (hole number) inserted)
    (before : List Char) (nonempty : before ≠ []) (starts : hole number <+: before ++ out) :
    hole number <+: before ++ text := by
  induction filled generalizing before with
  | nil => exact starts
  | @insert i inserted rest out given filled ih =>
    obtain ⟨after, whole⟩ := starts
    have outside := apart i inserted given (List.prefix_append _ _).isInfix before out [] after
      (by simpa only [List.append_assoc, List.nil_append] using whole.symm)
    have positive := List.length_pos_of_ne_nil nonempty
    have short : (hole number).length ≤ before.length := by
      simp only [List.length_nil] at outside
      omega
    have starts : hole number <+: before :=
      (List.isPrefix_append_of_length short).mp ⟨after, whole⟩
    exact starts.trans (List.prefix_append _ _)
  | @keep c rest out kept filled ih =>
    have later := ih (fun i inserted given occurs =>
      apart i inserted given (occurs.trans (List.suffix_cons c rest).isInfix))
      (before ++ [c]) (by simp) (by simpa using starts)
    simpa using later

/-- When all pieces stand apart from a placeholder, what is filled in has it only where it was there
before, and only when it has no piece. -/
theorem Filled.hole_infix (filled : Filled piece text out)
    (apart : ∀ i inserted, piece i = some inserted → Apart (hole number) inserted)
    (occurs : hole number <:+: out) : hole number <:+: text ∧ piece number = none := by
  induction filled with
  | nil => exact absurd (List.infix_nil.mp occurs) (hole_ne_nil number)
  | insert given filled ih =>
    obtain ⟨occurs, free⟩ := ih ((apart _ _ given).infix_append occurs)
    exact ⟨occurs.trans (List.suffix_append _ _).isInfix, free⟩
  | @keep c rest out kept filled ih =>
    rcases List.infix_cons_iff.mp occurs with starts | occurs
    · have starts := filled.hole_prefix (fun i inserted given _ => apart i inserted given) [c]
        (List.cons_ne_nil c []) starts
      refine ⟨starts.isInfix, ?_⟩
      exact Option.not_isSome_iff_eq_none.mp fun given => kept number given starts
    · obtain ⟨occurs, free⟩ := ih occurs
      exact ⟨occurs.trans (List.suffix_cons c rest).isInfix, free⟩

/-- Text without a brace that is not a number stands apart from all placeholders. -/
theorem apart_of_mem {piece : List Char} {c : Char} (mem : c ∈ piece) (noDigit : c.isDigit = false)
    (opened : '\x7b' ∉ piece) (closed : '\x7d' ∉ piece) (number : Nat) :
    Apart (hole number) piece := by
  intro before after start rest whole
  by_contra! touches
  obtain ⟨reaches, behind⟩ := touches
  have length : (hole number).length = (Nat.toDigits 10 number).length + 2 := by
    simp [hole_eq]
  -- A place of both the piece and the placeholder holds one character.
  have shared (place : Nat) (low : before.length ≤ place)
      (high : place < before.length + piece.length) (low' : start.length ≤ place)
      (high' : place < start.length + (hole number).length) :
      piece[place - before.length]? = (hole number)[place - start.length]? := by
    have same := congrArg (·[place]?) whole
    rwa [List.append_assoc, List.getElem?_append_right low,
      List.getElem?_append_left (by omega), List.append_assoc, List.getElem?_append_right low',
      List.getElem?_append_left (by omega)] at same
  have opens : start.length < before.length := by
    by_contra! inside
    have same := shared start.length inside behind le_rfl (by omega)
    rw [Nat.sub_self, hole_eq, List.getElem?_cons_zero] at same
    exact opened (List.mem_of_getElem? same)
  have closes : before.length + piece.length < start.length + (hole number).length := by
    by_contra! inside
    have same := shared (start.length + (Nat.toDigits 10 number).length + 1) (by omega) (by omega)
      (by omega) (by omega)
    rw [show start.length + (Nat.toDigits 10 number).length + 1 - start.length =
      (Nat.toDigits 10 number).length + 1 by omega, hole_eq, List.getElem?_cons_succ,
      List.getElem?_concat_length] at same
    exact closed (List.mem_of_getElem? same)
  obtain ⟨place, short, rfl⟩ := List.mem_iff_getElem.mp mem
  have same := shared (before.length + place) (by omega) (by omega) (by omega) (by omega)
  rw [Nat.add_sub_cancel_left, List.getElem?_eq_getElem short,
    show before.length + place - start.length = before.length - start.length - 1 + place + 1 by omega,
    hole_eq, List.getElem?_cons_succ, List.getElem?_append_left (by omega)] at same
  have digit := isDigit_of_mem_digits (List.mem_of_getElem? same.symm)
  rw [noDigit] at digit
  contradiction

/-! ### Passes -/

/-- A pass for a number that had no piece fills in its placeholders, when the pieces that are
inserted already stand apart from them. -/
theorem Filled.replaceAll (filled : Filled piece text out) (free : piece number = none)
    (given : more number = some inserted) (same : ∀ i, i ≠ number → more i = piece i)
    (apart : ∀ i inserted, piece i = some inserted → hole i <:+: text →
      Apart (hole number) inserted) :
    Filled more text (replaceAll (hole number) inserted out) := by
  have positive := List.length_pos_of_ne_nil (hole_ne_nil number)
  -- The pass goes on behind a placeholder, which is not a part of the template.
  induction size : text.length using Nat.strong_induction_on generalizing text out with
  | _ size ih =>
    subst size
    cases filled with
    | nil => exact .nil
    | @insert i inserted' rest out given' filled =>
      have other : i ≠ number := by
        rintro rfl
        simp [free] at given'
      have beside := apart i inserted' given' (List.prefix_append _ _).isInfix
      have kept : replaceAll (hole number) inserted (inserted' ++ out) =
          inserted' ++ replaceAll (hole number) inserted out :=
        replaceAll_keep inserted fun before after short whole => by
          rcases beside [] out before after (by simpa using whole) with early | late
          · simp only [List.length_nil] at early
            omega
          · simp only [List.length_nil] at late
            omega
      have smaller : rest.length < (hole i ++ rest).length := by
        have positive' := List.length_pos_of_ne_nil (hole_ne_nil i)
        rw [List.length_append]
        omega
      rw [kept]
      exact .insert ((same i other).trans given') (ih _ smaller filled
        (fun j inserted given occurs =>
          apart j inserted given (occurs.trans (List.suffix_append _ _).isInfix)) rfl)
    | @keep c rest out kept filled =>
      have whole := Filled.keep kept filled
      by_cases starts : hole number <+: c :: rest
      · obtain ⟨rest', split⟩ := starts
        rw [← split] at whole ⊢
        obtain ⟨out', split', filled'⟩ := whole.copy free
        have smaller : rest'.length < (c :: rest).length := by
          rw [← split, List.length_append]
          omega
        rw [split', replaceAll_append (hole_ne_nil number)]
        refine .insert given (ih _ smaller filled' (fun j inserted given occurs => ?_) rfl)
        exact apart j inserted given
          (occurs.trans (split ▸ (List.suffix_append _ _).isInfix))
      · have apart' : ∀ i inserted, piece i = some inserted → hole i <:+: rest →
            Apart (hole number) inserted := fun i inserted given occurs =>
          apart i inserted given (occurs.trans (List.suffix_cons c rest).isInfix)
        have starts' : ¬ hole number <+: c :: out := fun starts' =>
          starts (filled.hole_prefix apart' [c] (List.cons_ne_nil c []) starts')
        rw [replaceAll_cons starts']
        refine .keep (fun i given' starts'' => ?_) (ih _ (by simp) filled apart' rfl)
        by_cases this : i = number
        · exact starts (this ▸ starts'')
        · exact kept i (same i this ▸ given') starts''

variable {arguments done later : List String} {template argument : String}

theorem pieces_concat_self (done : List String) (argument : String) :
    pieces (done ++ [argument]) done.length = some argument.toList := by
  simp [pieces]

theorem pieces_concat_of_ne (argument : String) (other : number ≠ done.length) :
    pieces (done ++ [argument]) number = pieces done number := by
  rw [pieces, pieces]
  rcases Nat.lt_or_gt_of_ne other with before | behind
  · rw [List.getElem?_append_left before]
  · rw [List.getElem?_append_right (by omega), List.getElem?_eq_none (by simp; omega),
      List.getElem?_eq_none (by omega)]

theorem pieces_eq_none : pieces arguments number = none ↔ arguments.length ≤ number := by
  simp [pieces]

theorem Filled.fillLater (filled : Filled (pieces done) text out)
    (apart : ∀ i j inserted, i < j → j < (done ++ later).length →
      pieces (done ++ later) i = some inserted → hole i <:+: text → Apart (hole j) inserted) :
    Filled (pieces (done ++ later)) text (fillFrom done.length out later) := by
  induction later generalizing done out with
  | nil => rwa [List.append_nil]
  | cons argument later ih =>
    have free : pieces done done.length = none := pieces_eq_none.mpr le_rfl
    have filled' := filled.replaceAll free (pieces_concat_self done argument)
      (fun i other => pieces_concat_of_ne argument other) fun i inserted given occurs => by
        have before : i < done.length := by
          by_contra! behind
          simp [pieces_eq_none.mpr behind] at given
        refine apart i _ inserted before (by simp) ?_ occurs
        rwa [pieces, List.getElem?_append_left before]
    have rest := ih filled' (by simpa using apart)
    rw [List.length_append, List.length_singleton, List.append_assoc] at rest
    exact rest

/-- The passes fill in the arguments, when no argument whose placeholder occurs can become a part of
a placeholder that is replaced after it. -/
theorem filled_fill (apart : ∀ i j argument, i < j → j < arguments.length →
      arguments[i]? = some argument → hole i <:+: template.toList →
      Apart (hole j) argument.toList) :
    Filled (pieces arguments) template.toList (fill template arguments).toList := by
  have start : Filled (pieces []) template.toList template.toList :=
    filled_of_free (fun _ => rfl) _
  have filled : Filled (pieces arguments) template.toList (fillFrom 0 template.toList arguments) :=
    start.fillLater fun i j inserted before inside given occurs => by
      obtain ⟨argument, found, rfl⟩ := Option.map_eq_some_iff.mp given
      exact apart i j argument before inside found occurs
  rwa [fill, String.toList_ofList]

/-- The text of a diagnostic has one argument, so that it always is the message filled in. -/
theorem filled_unsupportedShape (type : TypeId) (shape : OpaqueShape) :
    Filled (pieces [shape.label]) unsupportedShape.template.toList
      (Diagnostic.unsupportedShape type shape).text.toList :=
  filled_fill fun i j _ before inside _ _ => by
    rw [List.length_singleton] at inside
    omega

theorem fillFrom_append (number : Nat) (text : List Char) (done later : List String) :
    fillFrom number text (done ++ later) =
      fillFrom (number + done.length) (fillFrom number text done) later := by
  induction done generalizing number text with
  | nil => rfl
  | cons argument done ih =>
    rw [List.cons_append, fillFrom, ih, fillFrom, List.length_cons]
    congr 1
    omega

theorem apart_letter (number : Nat) : Apart (hole number) ['x'] :=
  apart_of_mem List.mem_cons_self (by decide) (by decide) (by decide) number

/-- A pass that replaces a placeholder by a letter leaves no such placeholder, and makes no
other. -/
theorem hole_infix_replaceAll
    (occurs : hole number <:+: replaceAll (hole other) ['x'] text) :
    hole number <:+: text ∧ number ≠ other := by
  have start : Filled (fun _ => none) text text := filled_of_free (fun _ => rfl) text
  have filled : Filled (fun i => if i = other then some ['x'] else none) text
      (replaceAll (hole other) ['x'] text) :=
    start.replaceAll rfl (if_pos rfl) (fun i apart => if_neg apart) (by simp)
  obtain ⟨before, free⟩ := filled.hole_infix (fun i inserted given => by
    rw [← Option.some.inj (Option.ite_none_right_eq_some.mp given).2]
    exact apart_letter number) occurs
  exact ⟨before, fun same => by simp [same] at free⟩

theorem hole_infix_fillFrom {count : Nat}
    (occurs : hole number <:+: fillFrom other text (List.replicate count "x")) :
    hole number <:+: text ∧ ¬ (other ≤ number ∧ number < other + count) := by
  induction count generalizing other text with
  | zero => exact ⟨occurs, by omega⟩
  | succ count ih =>
    obtain ⟨occurs, outside⟩ := ih occurs
    obtain ⟨occurs, apart⟩ := hole_infix_replaceAll occurs
    exact ⟨occurs, by omega⟩

/-- A placeholder that is followed by the number of a later argument can be given an argument that
looks like the later placeholder. -/
theorem exists_not_filled {count : Nat} (later : number + 1 < count)
    (occurs : hole number <:+: template.toList) : ∃ arguments, arguments.length = count ∧
      ¬ Filled (pieces arguments) template.toList (fill template arguments).toList := by
  refine ⟨List.replicate number "x" ++
    placeholder (number + 1) :: List.replicate (count - number - 1) "x", ?_, fun filled => ?_⟩
  · simp only [List.length_append, List.length_cons, List.length_replicate]
    omega
  · have given : pieces (List.replicate number "x" ++
        placeholder (number + 1) :: List.replicate (count - number - 1) "x") number =
        some (hole (number + 1)) := by
      simp [pieces, hole]
    have inserted := filled.inserted_infix given occurs
    rw [fill, String.toList_ofList, fillFrom_append, fillFrom, List.length_replicate,
      Nat.zero_add] at inserted
    exact (hole_infix_fillFrom inserted).2 (by omega)

/-- Filling in the arguments one after the other is filling them in at once where no inserted
argument can become a part of a later placeholder, and it is that for all arguments exactly when the
template has no placeholder that another one comes after. -/
theorem filled_fill_iff (template : String) :
    (∀ arguments, (∀ i j argument, i < j → j < arguments.length →
        arguments[i]? = some argument → hole i <:+: template.toList →
        Apart (hole j) argument.toList) →
      Filled (pieces arguments) template.toList (fill template arguments).toList) ∧
    ∀ count, (∀ arguments, arguments.length = count →
        Filled (pieces arguments) template.toList (fill template arguments).toList) ↔
      ∀ number, number + 1 < count → ¬ hole number <:+: template.toList := by
  refine ⟨fun arguments => filled_fill, fun count => ⟨fun all number later occurs => ?_, ?_⟩⟩
  · obtain ⟨arguments, length, not⟩ := exists_not_filled later occurs
    exact not (all arguments length)
  · rintro free arguments rfl
    exact filled_fill fun i j argument before inside _ occurs =>
      absurd occurs (free i (by omega))

/-- Two words for two placeholders, and one argument for a template that names no other. -/
theorem filled_fill_iff_words :
    Filled (pieces ["class", "enum"]) "\x7b0\x7d \x7b1\x7d".toList
        (fill "\x7b0\x7d \x7b1\x7d" ["class", "enum"]).toList ∧
      Filled (pieces ["\x7b1\x7d"]) "\x7b0\x7d".toList (fill "\x7b0\x7d" ["\x7b1\x7d"]).toList := by
  refine ⟨(filled_fill_iff _).1 _ fun i j argument before inside found _ => ?_,
    ((filled_fill_iff _).2 1).mpr (fun number later => by omega) _ rfl⟩
  obtain rfl : i = 0 := by
    simp only [List.length_cons, List.length_nil] at inside
    omega
  obtain rfl := Option.some.inj found
  have letter : 'c' ∈ "class".toList := by decide
  exact apart_of_mem letter (by decide) (by decide) (by decide) j

theorem fill_not_filled :
    fill "\x7b0\x7d \x7b1\x7d" ["\x7b1\x7d", "x"] = "x x" ∧
      Filled (pieces ["\x7b1\x7d", "x"]) "\x7b0\x7d \x7b1\x7d".toList "\x7b1\x7d x".toList ∧
      ¬ Filled (pieces ["\x7b1\x7d", "x"]) "\x7b0\x7d \x7b1\x7d".toList
        (fill "\x7b0\x7d \x7b1\x7d" ["\x7b1\x7d", "x"]).toList := by
  have result : fill "\x7b0\x7d \x7b1\x7d" ["\x7b1\x7d", "x"] = "x x" := by decide
  have filled : Filled (pieces ["\x7b1\x7d", "x"]) "\x7b0\x7d \x7b1\x7d".toList
      "\x7b1\x7d x".toList := by
    have second : Filled (pieces ["\x7b1\x7d", "x"]) (hole 1 ++ []) ("x".toList ++ []) :=
      .insert rfl .nil
    have blank : ∀ number, ¬ hole number <+: ' ' :: (hole 1 ++ []) := fun number starts =>
      absurd (eq_of_hole_prefix_cons starts) (by decide)
    have first : Filled (pieces ["\x7b1\x7d", "x"]) (hole 0 ++ ' ' :: (hole 1 ++ []))
        ("\x7b1\x7d".toList ++ ' ' :: ("x".toList ++ [])) :=
      .insert rfl (.keep (fun number _ => blank number) second)
    exact first
  refine ⟨result, filled, fun other => ?_⟩
  rw [result] at other
  exact absurd (filled.unique other) (by decide)

end Message
end Respell

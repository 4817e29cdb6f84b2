/-!
Interned texts. A table keeps each text once, in the order in which the texts arrived, and the
empty text always comes first. Main statements: interning finds a text that is already there
(`intern_of_text?`), the handle it gives out resolves to the text (`text?_intern`), and later
interning changes no text that a handle already resolves to (`text?_intern_of_text?`).
-/
namespace Respell

/-- A place in a table: the number of an entry, or a tag for a handle that no table gives out. -/
inductive Slot
  | entry (index : Nat)
  | foreign (tag : Nat)
  deriving DecidableEq, Repr

/-- One more than the number of the entry, and zero for a foreign slot. -/
def Slot.rank : Slot → Nat
  | entry index => index + 1
  | foreign _ => 0

structure Atom where
  slot : Slot
  deriving DecidableEq, Repr

namespace Atom

def none : Atom := ⟨.entry 0⟩

def isNone (a : Atom) : Bool := a == none

instance : Inhabited Atom := ⟨none⟩

end Atom

/-- Texts without repetition, the empty one first. -/
structure TextTable where
  texts : Array String := #[""]
  nodup : texts.toList.Nodup := by decide
  first_empty : texts[0]? = some "" := by decide

namespace TextTable

def empty : TextTable := {}

instance : Inhabited TextTable := ⟨empty⟩

def size (t : TextTable) : Nat := t.texts.size

def isEmpty (t : TextTable) : Bool := t.size ≤ 1

def text? (t : TextTable) (a : Atom) : Option String :=
  match a.slot with
  | .entry index => t.texts[index]?
  | .foreign _ => .none

def text (t : TextTable) (a : Atom) : String := (t.text? a).getD ""

theorem size_texts_pos (t : TextTable) : 0 < t.texts.size :=
  (Array.getElem?_eq_some_iff.mp t.first_empty).1

def push (t : TextTable) (text : String) (fresh : text ∉ t.texts) : TextTable where
  texts := t.texts.push text
  nodup := by
    rw [Array.toList_push]
    refine List.nodup_append.mpr ⟨t.nodup, by simp, ?_⟩
    intro a ha b hb
    rw [List.mem_singleton] at hb
    rintro rfl
    exact fresh (hb ▸ Array.mem_toList_iff.mp ha)
  first_empty := by
    rw [Array.getElem?_push_lt t.size_texts_pos, ← Array.getElem?_eq_getElem]
    exact t.first_empty

/-- The atom of a text, which is added at the end when it is new. -/
def intern (t : TextTable) (text : String) : Atom × TextTable :=
  match h : t.texts.idxOf? text with
  | some index => (⟨.entry index⟩, t)
  | .none => (⟨.entry t.size⟩, t.push text (by simpa using h))

theorem text?_push_of_text? {t : TextTable} {a : Atom} {old text : String}
    {fresh : text ∉ t.texts} (h : t.text? a = some old) : (t.push text fresh).text? a = some old := by
  obtain ⟨_ | _⟩ := a
  · simp only [text?] at h
    simp only [text?, push]
    rw [Array.getElem?_push_lt (Array.getElem?_eq_some_iff.mp h).1, ← Array.getElem?_eq_getElem, h]
  · simp [text?] at h

theorem text?_intern (t : TextTable) (text : String) :
    (t.intern text).2.text? (t.intern text).1 = some text := by
  unfold intern
  split
  · rename_i index h
    rw [Array.idxOf?_eq_map_finIdxOf?_val, Option.map_eq_some_iff] at h
    obtain ⟨i, hi, rfl⟩ := h
    rw [Array.finIdxOf?_eq_some_iff] at hi
    simpa [text?] using hi.1
  · simp [text?, push, size]

theorem text?_intern_of_text? {t : TextTable} {a : Atom} {old : String} (text : String)
    (h : t.text? a = some old) : (t.intern text).2.text? a = some old := by
  unfold intern
  split
  · exact h
  · rename_i hnone
    have fresh : text ∉ t.texts := by simpa using hnone
    exact @text?_push_of_text? t a old text fresh h

theorem atom_eq_of_text? {t : TextTable} {a b : Atom} {text : String}
    (ha : t.text? a = some text) (hb : t.text? b = some text) : a = b := by
  obtain ⟨i | _⟩ := a <;> obtain ⟨j | _⟩ := b <;> simp only [text?, reduceCtorEq] at ha hb
  rw [← Array.getElem?_toList] at ha hb
  have hi : i < t.texts.toList.length := (List.getElem?_eq_some_iff.mp ha).1
  rw [(List.getElem?_inj hi t.nodup).mp (ha.trans hb.symm)]

theorem intern_of_text? {t : TextTable} {a : Atom} {text : String} (h : t.text? a = some text) :
    t.intern text = (a, t) := by
  have same : (t.intern text).1 = a :=
    atom_eq_of_text? (t.text?_intern text) (text?_intern_of_text? text h)
  unfold intern at same ⊢
  split at same
  · rw [← same]
  · rename_i hnone
    obtain ⟨i | _⟩ := a <;> simp only [text?, reduceCtorEq] at h
    rw [Array.idxOf?_eq_none_iff] at hnone
    exact absurd (Array.mem_of_getElem? h) hnone

def internAll (t : TextTable) (texts : List String) : TextTable :=
  texts.foldl (fun t text => (t.intern text).2) t

def commonTexts : List String :=
  ["std", "detail", "QtCore",
   "vector", "list", "map", "set", "pair", "string", "basic_string", "allocator", "char_traits",
   "shared_ptr", "unique_ptr", "QList", "QString", "QVector", "QMap", "QHash",
   "T", "U", "K", "V", "Key", "Value", "Alloc", "Traits",
   "value_type", "size_type", "iterator", "const_iterator", "reference", "const_reference",
   "pointer", "first", "second", "size", "begin", "end", "data",
   "init", "alloc", "release", "retain", "description"]

def common : TextTable := empty.internAll commonTexts

end TextTable
end Respell

import Mathlib.Data.List.Nodup
import Mathlib.Data.List.Range
import Mathlib.Data.List.Sublists
import Mathlib.Logic.Relation

/-! Trails along links. Everything has at most one link to follow, and may not be there at all; a
trail is what is passed on the way until the way ends. Main statements: a trail passes nothing twice
(`Trail.nodup`), links that go down in rank have trails (`exists_trail_of_lt`), and a link put where
nothing was keeps every trail finite exactly when it does not lead back there
(`forall_exists_trail_insert`). -/
namespace Respell

variable {α : Type} {next next' : α → Option (Option α)} {a b : α}

/-- The way from `a` passes these. `next` answers `none` for what is not there, and `some none` for
what has no link. -/
inductive Trail (next : α → Option (Option α)) : α → List α → Prop
  | absent {a : α} (h : next a = none) : Trail next a []
  | last {a : α} (h : next a = some none) : Trail next a [a]
  | onward {a b : α} {rest : List α} (h : next a = some (some b)) (others : Trail next b rest) :
      Trail next a (a :: rest)

/-- Following links from the one comes to the other. -/
def Leads (next : α → Option (Option α)) : α → α → Prop :=
  Relation.ReflTransGen fun a b => next a = some (some b)

namespace Trail

variable {l l' : List α}

theorem unique (h : Trail next a l) (h' : Trail next a l') : l = l' := by
  induction h generalizing l' with
  | absent gone =>
    cases h' with
    | absent => rfl
    | last there => rw [gone] at there; cases there
    | onward there => rw [gone] at there; cases there
  | last ends =>
    cases h' with
    | absent gone => rw [ends] at gone; cases gone
    | last => rfl
    | onward there => rw [ends] at there; cases there
  | onward link _ ih =>
    cases h' with
    | absent gone => rw [link] at gone; cases gone
    | last ends => rw [link] at ends; cases ends
    | onward link' others =>
      rw [link] at link'
      cases link'
      rw [ih others]

theorem tail (h : Trail next a l) (link : next a = some (some b)) :
    ∃ rest, l = a :: rest ∧ Trail next b rest := by
  cases h with
  | absent gone => rw [link] at gone; cases gone
  | last ends => rw [link] at ends; cases ends
  | onward link' others =>
    rw [link] at link'
    cases link'
    exact ⟨_, rfl, others⟩

theorem of_mem (h : Trail next a l) (mem : b ∈ l) : ∃ l', Trail next b l' ∧ l' <:+ l := by
  induction h with
  | absent => cases mem
  | last ends =>
    obtain rfl := List.mem_singleton.mp mem
    exact ⟨_, .last ends, List.suffix_rfl⟩
  | onward link others ih =>
    rcases List.mem_cons.mp mem with rfl | mem
    · exact ⟨_, .onward link others, List.suffix_rfl⟩
    · obtain ⟨l', trail, suffix⟩ := ih mem
      exact ⟨l', trail, suffix.trans (List.suffix_cons ..)⟩

theorem of_leads (h : Trail next a l) (leads : Leads next a b) :
    ∃ l', Trail next b l' ∧ l' <:+ l := by
  induction leads with
  | refl => exact ⟨l, h, List.suffix_rfl⟩
  | tail _ link ih =>
    obtain ⟨l', trail, suffix⟩ := ih
    obtain ⟨rest, rfl, others⟩ := trail.tail link
    exact ⟨rest, others, (List.suffix_cons ..).trans suffix⟩

/-- A way that ends does not come back to where it was. -/
theorem not_leads_back (h : Trail next a l) (link : next a = some (some b)) : ¬ Leads next b a := by
  intro back
  obtain ⟨rest, rfl, others⟩ := h.tail link
  obtain ⟨l', again, suffix⟩ := others.of_leads back
  have shorter := suffix.length_le
  rw [again.unique h, List.length_cons] at shorter
  omega

theorem nodup (h : Trail next a l) : l.Nodup := by
  induction h with
  | absent => exact .nil
  | last => exact List.nodup_singleton _
  | onward link others ih =>
    refine List.nodup_cons.mpr ⟨?_, ih⟩
    intro back
    obtain ⟨l', again, suffix⟩ := others.of_mem back
    have shorter := suffix.length_le
    rw [again.unique (.onward link others), List.length_cons] at shorter
    omega

theorem ne_none_of_mem (h : Trail next a l) (mem : b ∈ l) : next b ≠ none := by
  induction h with
  | absent => cases mem
  | last ends =>
    obtain rfl := List.mem_singleton.mp mem
    simp [ends]
  | onward link _ ih =>
    rcases List.mem_cons.mp mem with rfl | mem
    · simp [link]
    · exact ih mem

/-- A trail is not longer than there are things. -/
theorem length_le (index : α → Nat) {size : Nat} (h : Trail next a l)
    (distinct : Function.Injective index) (inside : ∀ b, next b ≠ none → index b < size) :
    l.length ≤ size := by
  have indices : (l.map index) ⊆ List.range size := by
    intro i hi
    obtain ⟨b, hb, rfl⟩ := List.mem_map.mp hi
    exact List.mem_range.mpr (inside b (h.ne_none_of_mem hb))
  have shorter := (List.subperm_of_subset (h.nodup.map distinct) indices).length_le
  rwa [List.length_map, List.length_range] at shorter

end Trail

theorem Leads.rank_le (rank : α → Nat) (down : ∀ a b, next a = some (some b) → rank b < rank a)
    (leads : Leads next a b) : rank b ≤ rank a := by
  induction leads with
  | refl => exact Nat.le_refl _
  | tail _ link ih => exact Nat.le_trans (Nat.le_of_lt (down _ _ link)) ih

theorem exists_trail_of_lt (rank : α → Nat)
    (down : ∀ a b, next a = some (some b) → rank b < rank a) (a : α) : ∃ l, Trail next a l := by
  induction bound : rank a using Nat.strongRecOn generalizing a with
  | ind r ih =>
    cases link : next a with
    | none => exact ⟨_, .absent link⟩
    | some onward =>
      cases onward with
      | none => exact ⟨_, .last link⟩
      | some b =>
        obtain ⟨l, others⟩ := ih _ (bound ▸ down a b link) b rfl
        exact ⟨_, .onward link others⟩

/-! ### A new link -/

section

variable {n p : α} (same : ∀ a, a ≠ n → next' a = next a) (link : next' n = some (some p))
  (fresh : next n = none)

include same

/-- A way that does not come to the new link is as it was. -/
theorem Trail.avoid_insert {l : List α} (h : Trail next a l) (avoids : ¬ Leads next a n) :
    Trail next' a l := by
  induction h with
  | absent gone =>
    have other : _ ≠ n := fun here => avoids (here ▸ .refl)
    exact .absent ((same _ other).trans gone)
  | last ends =>
    have other : _ ≠ n := fun here => avoids (here ▸ .refl)
    exact .last ((same _ other).trans ends)
  | onward step _ ih =>
    have other : _ ≠ n := fun here => avoids (here ▸ .refl)
    exact .onward ((same _ other).trans step) (ih fun leads => avoids (.head step leads))

include link

theorem Trail.after_insert {l : List α} (h : Trail next a l) (target : ∃ l', Trail next' p l') :
    ∃ l', Trail next' a l' := by
  have atLink : ∃ l', Trail next' n l' := by
    obtain ⟨l', others⟩ := target
    exact ⟨_, .onward link others⟩
  induction h with
  | @absent a gone =>
    by_cases here : a = n
    · exact here ▸ atLink
    · exact ⟨_, .absent ((same a here).trans gone)⟩
  | @last a ends =>
    by_cases here : a = n
    · exact here ▸ atLink
    · exact ⟨_, .last ((same a here).trans ends)⟩
  | @onward a b rest step _ ih =>
    by_cases here : a = n
    · exact here ▸ atLink
    · obtain ⟨l', others⟩ := ih
      exact ⟨_, .onward ((same a here).trans step) others⟩

include fresh

omit link in
theorem Leads.insert (leads : Leads next a b) : Leads next' a b := by
  refine Relation.ReflTransGen.mono ?_ _ _ leads
  intro c d step
  have other : c ≠ n := by
    rintro rfl
    rw [fresh] at step
    cases step
  exact (same c other).trans step

/-- Without the new link the way ends where the link was put. -/
theorem Trail.before_insert {l : List α} (h : Trail next' a l) : ∃ l', Trail next a l' := by
  induction h with
  | @absent a gone =>
    have other : a ≠ n := by
      rintro rfl
      rw [link] at gone
      cases gone
    exact ⟨_, .absent ((same a other).symm.trans gone)⟩
  | @last a ends =>
    have other : a ≠ n := by
      rintro rfl
      rw [link] at ends
      cases ends
    exact ⟨_, .last ((same a other).symm.trans ends)⟩
  | @onward a b rest step _ ih =>
    by_cases here : a = n
    · exact ⟨_, .absent (here ▸ fresh)⟩
    · obtain ⟨l', others⟩ := ih
      exact ⟨_, .onward ((same a here).symm.trans step) others⟩

theorem forall_exists_trail_insert :
    (∀ a, ∃ l, Trail next' a l) ↔ (∀ a, ∃ l, Trail next a l) ∧ ¬ Leads next p n := by
  constructor
  · intro ends
    refine ⟨fun a => ?_, fun back => ?_⟩
    · obtain ⟨l, trail⟩ := ends a
      exact trail.before_insert same link fresh
    · obtain ⟨l, trail⟩ := ends n
      exact trail.not_leads_back link (back.insert same fresh)
  · rintro ⟨ends, avoids⟩ a
    obtain ⟨l, trail⟩ := ends a
    obtain ⟨l', target⟩ := ends p
    exact trail.after_insert same link ⟨l', target.avoid_insert same avoids⟩

end

end Respell

import Mathlib.Algebra.Order.Ring.Nat
import Mathlib.Data.List.Induction
import Mathlib.Order.Basic

/-! Predecessor search in strictly sorted lists, flat or cut into chunks.

`partitionPoint` is the number of leading items that satisfy a predicate. On a
sorted list and an upper-bound predicate it is the slot just past the greatest
item at or below the target, so the item before it is the predecessor. -/

namespace Fossil

section Search

variable {α γ κ : Type} [LinearOrder κ] {key : α → κ} {target : κ}

def partitionPoint (holds : α → Bool) (items : List α) : Nat := (items.takeWhile holds).length

/-- The greatest item whose key is at or below the target, for sorted items. -/
def predecessor (key : α → κ) (target : κ) (items : List α) : Option α :=
  (items.takeWhile (fun item => decide (key item ≤ target))).getLast?

theorem getElem?_partitionPoint (items : List α) :
    (if partitionPoint (fun item => decide (key item ≤ target)) items = 0 then none
      else items[partitionPoint (fun item => decide (key item ≤ target)) items - 1]?) =
      predecessor key target items := by
  generalize split : items.takeWhile (fun item => decide (key item ≤ target)) = front
  have leading : front <+: items := split ▸ List.takeWhile_prefix _
  obtain ⟨back, rfl⟩ := leading
  simp only [partitionPoint, predecessor, split]
  cases front using List.reverseRecOn with
  | nil => simp
  | append_singleton front last _ => simp

theorem partitionPoint_eq_zero (items : List α) :
    partitionPoint (fun item => decide (key item ≤ target)) items = 0 ↔
      predecessor key target items = none := by
  simp [partitionPoint, predecessor]

def StrictlySorted (key : α → κ) (items : List α) : Prop :=
  items.Pairwise (fun left right => key left < key right)

theorem StrictlySorted.key_injective {items : List α} (sorted : StrictlySorted key items)
    {left right : α} (leftIn : left ∈ items) (rightIn : right ∈ items)
    (same : key left = key right) : left = right := by
  induction items with
  | nil => cases leftIn
  | cons head tail ih =>
      obtain ⟨first, rest⟩ := List.pairwise_cons.mp sorted
      rcases List.mem_cons.mp leftIn with rfl | early <;>
        rcases List.mem_cons.mp rightIn with rfl | late
      · rfl
      · exact absurd same (ne_of_lt (first _ late))
      · exact absurd same.symm (ne_of_lt (first _ early))
      · exact ih rest early late

theorem mem_takeWhile_iff {items : List α} (sorted : StrictlySorted key items) (item : α) :
    item ∈ items.takeWhile (fun item => decide (key item ≤ target)) ↔
      item ∈ items ∧ key item ≤ target := by
  induction items with
  | nil => simp
  | cons head tail ih =>
      obtain ⟨first, rest⟩ := List.pairwise_cons.mp sorted
      by_cases low : key head ≤ target
      · simp only [List.takeWhile_cons, low, decide_true, ↓reduceIte, List.mem_cons, ih rest]
        constructor
        · rintro (rfl | ⟨member, bound⟩)
          · exact ⟨.inl rfl, low⟩
          · exact ⟨.inr member, bound⟩
        · rintro ⟨rfl | member, bound⟩
          · exact .inl rfl
          · exact .inr ⟨member, bound⟩
      · simp only [List.takeWhile_cons, low, decide_false, Bool.false_eq_true, ↓reduceIte,
          List.not_mem_nil, List.mem_cons, false_iff, not_and]
        rintro (rfl | member)
        · exact low
        · exact fun bound => low (le_trans (le_of_lt (first item member)) bound)

/-- The search result is exactly the greatest item at or below the target. -/
theorem predecessor_eq_some {items : List α} (sorted : StrictlySorted key items) (item : α) :
    predecessor key target items = some item ↔
      item ∈ items ∧ key item ≤ target ∧
        ∀ other ∈ items, key other ≤ target → key other ≤ key item := by
  have members : ∀ item, item ∈ items.takeWhile (fun item => decide (key item ≤ target)) ↔
      item ∈ items ∧ key item ≤ target := mem_takeWhile_iff sorted
  have front : StrictlySorted key (items.takeWhile (fun item => decide (key item ≤ target))) :=
    sorted.sublist (List.takeWhile_sublist _)
  unfold predecessor
  generalize items.takeWhile (fun item => decide (key item ≤ target)) = found at members front
  cases found using List.reverseRecOn with
  | nil =>
      simp only [List.getLast?_nil, reduceCtorEq, false_iff, not_and]
      intro member bound
      exact absurd ((members item).mpr ⟨member, bound⟩) List.not_mem_nil
  | append_singleton found last _ =>
      have below : ∀ other ∈ found ++ [last], key other ≤ key last := by
        intro other member
        rcases List.mem_append.mp member with early | final
        · exact le_of_lt ((List.pairwise_append.mp front).2.2 other early last (by simp))
        · rw [List.mem_singleton.mp final]
      have lastIn := (members last).mp (by simp)
      simp only [List.getLast?_append, List.getLast?_singleton, Option.some_or, Option.some.injEq]
      constructor
      · rintro rfl
        exact ⟨lastIn.1, lastIn.2, fun other member bound =>
          below other ((members other).mpr ⟨member, bound⟩)⟩
      · rintro ⟨member, bound, greatest⟩
        exact sorted.key_injective lastIn.1 member (le_antisymm (greatest last lastIn.1 lastIn.2)
          (below item ((members item).mpr ⟨member, bound⟩)))

theorem predecessor_eq_none {items : List α} (sorted : StrictlySorted key items) :
    predecessor key target items = none ↔ ∀ item ∈ items, target < key item := by
  have members : ∀ item, item ∈ items.takeWhile (fun item => decide (key item ≤ target)) ↔
      item ∈ items ∧ key item ≤ target := mem_takeWhile_iff sorted
  unfold predecessor
  rw [List.getLast?_eq_none_iff, List.eq_nil_iff_forall_not_mem]
  constructor
  · intro empty item member
    exact lt_of_not_ge (fun bound => empty item ((members item).mpr ⟨member, bound⟩))
  · intro above item member
    obtain ⟨member, bound⟩ := (members item).mp member
    exact absurd (above item member) (not_lt_of_ge bound)

theorem predecessor_map {β : Type} (into : β → α) (items : List β) :
    predecessor key target (items.map into) =
      (predecessor (fun item => key (into item)) target items).map into := by
  rw [predecessor, List.takeWhile_map, List.getLast?_map]
  rfl

theorem sublist_flatMap {content : γ → List α} {chunk : γ} {chunks : List γ} (member : chunk ∈ chunks) :
    (content chunk).Sublist (chunks.flatMap content) := by
  rcases List.append_of_mem member with ⟨before, after, rfl⟩
  simp only [List.flatMap_append, List.flatMap_cons]
  exact (List.sublist_append_left _ _).trans (List.sublist_append_right _ _)

/-- Chunks of a sorted list, each entered at the key of its first item. -/
structure Chunked (key : α → κ) (first : γ → κ) (content : γ → List α) (chunks : List γ) : Prop where
  sorted : StrictlySorted key (chunks.flatMap content)
  entry : ∀ chunk ∈ chunks, ∃ head tail, content chunk = head :: tail ∧ key head = first chunk

variable {first : γ → κ} {content : γ → List α}

theorem Chunked.tail {chunk : γ} {chunks : List γ}
    (chunked : Chunked key first content (chunk :: chunks)) : Chunked key first content chunks := by
  refine ⟨?_, fun other member => chunked.entry other (List.mem_cons_of_mem _ member)⟩
  have sorted := chunked.sorted
  rw [StrictlySorted, List.flatMap_cons] at sorted
  exact (List.pairwise_append.mp sorted).2.1

theorem Chunked.content_sorted {chunk : γ} {chunks : List γ}
    (chunked : Chunked key first content chunks) (member : chunk ∈ chunks) :
    StrictlySorted key (content chunk) := chunked.sorted.sublist (sublist_flatMap member)

theorem Chunked.first_le {chunk : γ} {chunks : List γ}
    (chunked : Chunked key first content chunks) (member : chunk ∈ chunks) {item : α}
    (inside : item ∈ content chunk) : first chunk ≤ key item := by
  obtain ⟨head, tail, shape, entry⟩ := chunked.entry chunk member
  have sorted := chunked.content_sorted member
  rw [shape] at inside sorted
  rw [← entry]
  rcases List.mem_cons.mp inside with rfl | inside
  · exact le_rfl
  · exact le_of_lt ((List.pairwise_cons.mp sorted).1 item inside)

theorem Chunked.first_sorted {chunks : List γ} (chunked : Chunked key first content chunks) :
    StrictlySorted first chunks := by
  induction chunks with
  | nil => exact List.Pairwise.nil
  | cons chunk chunks ih =>
      refine List.pairwise_cons.mpr ⟨?_, ih chunked.tail⟩
      intro other member
      obtain ⟨head, tail, shape, entry⟩ := chunked.entry chunk (by simp)
      obtain ⟨head', tail', shape', entry'⟩ :=
        chunked.entry other (List.mem_cons_of_mem _ member)
      have sorted := chunked.sorted
      rw [StrictlySorted, List.flatMap_cons] at sorted
      rw [← entry, ← entry']
      exact (List.pairwise_append.mp sorted).2.2 head (by simp [shape]) head'
        (List.mem_flatMap.mpr ⟨other, member, by simp [shape']⟩)

/-- Searching the entry keys and then the chosen chunk finds the predecessor
of the whole list. -/
theorem Chunked.predecessor {chunks : List γ} (chunked : Chunked key first content chunks) :
    predecessor key target (chunks.flatMap content) =
      (predecessor first target chunks).bind (fun chunk => predecessor key target (content chunk)) := by
  cases found : Fossil.predecessor first target chunks with
  | none =>
      have above := (predecessor_eq_none chunked.first_sorted).mp found
      rw [Option.bind_none, predecessor_eq_none chunked.sorted]
      intro item member
      obtain ⟨chunk, inside, member⟩ := List.mem_flatMap.mp member
      exact lt_of_lt_of_le (above chunk inside) (chunked.first_le inside member)
  | some chunk =>
      obtain ⟨inside, low, greatest⟩ := (predecessor_eq_some chunked.first_sorted chunk).mp found
      have sorted := chunked.content_sorted inside
      obtain ⟨head, tail, shape, entry⟩ := chunked.entry chunk inside
      rw [Option.bind_some]
      cases hit : Fossil.predecessor key target (content chunk) with
      | none =>
          have above := (predecessor_eq_none sorted).mp hit head (by simp [shape])
          exact absurd low (not_le_of_gt (entry ▸ above))
      | some item =>
          obtain ⟨member, bound, last⟩ := (predecessor_eq_some sorted item).mp hit
          refine (predecessor_eq_some chunked.sorted item).mpr
            ⟨List.mem_flatMap.mpr ⟨chunk, inside, member⟩, bound, ?_⟩
          intro other otherIn otherBound
          obtain ⟨chunk', inside', otherIn⟩ := List.mem_flatMap.mp otherIn
          have entry' := chunked.first_le inside' otherIn
          have order := greatest chunk' inside' (le_trans entry' otherBound)
          rcases eq_or_lt_of_le order with same | earlier
          · rw [chunked.first_sorted.key_injective inside' inside same] at otherIn
            exact last other otherIn otherBound
          -- A chunk that starts earlier ends before the chosen chunk starts.
          · refine le_trans (le_of_lt ?_) (chunked.first_le inside member)
            obtain ⟨before, after, split⟩ := List.append_of_mem inside
            have sortedAll := chunked.sorted
            have firsts := chunked.first_sorted
            rw [split] at inside' sortedAll firsts
            rw [StrictlySorted, List.flatMap_append, List.flatMap_cons] at sortedAll
            rcases List.mem_append.mp inside' with early | late
            · rw [← entry]
              exact (List.pairwise_append.mp sortedAll).2.2 other
                (List.mem_flatMap.mpr ⟨chunk', early, otherIn⟩) head (by simp [shape])
            · exfalso
              rcases List.mem_cons.mp late with rfl | late
              · exact lt_irrefl _ earlier
              · have order := (List.pairwise_cons.mp (List.pairwise_append.mp firsts).2.1).1 chunk' late
                exact lt_asymm earlier order

end Search

end Fossil

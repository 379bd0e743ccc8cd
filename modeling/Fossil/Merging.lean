import Fossil.Search
import Mathlib.Data.List.Perm.Basic

/-! Merging sorted sources by repeatedly taking the least front.

`Interleaves` says that a sorted list is what is left of several sorted sources.
Taking a least front off its source takes the first item off the sorted list. -/

namespace Fossil

section

variable {α κ : Type} [LinearOrder κ] {key : α → κ}

/-- The position of the least front among several sources, first one on ties. -/
def leastFront (key : α → κ) : List (Option α) → Option (Nat × α)
  | [] => none
  | none :: rest => (leastFront key rest).map (fun found => (found.1 + 1, found.2))
  | some front :: rest =>
      match leastFront key rest with
      | none => some (0, front)
      | some (index, other) => if key other < key front then some (index + 1, other)
          else some (0, front)

/-- A front that no other front is below. -/
structure Least (key : α → κ) (fronts : List (Option α)) (index : Nat) (item : α) : Prop where
  front : fronts[index]? = some (some item)
  least : ∀ other, some other ∈ fronts → key item ≤ key other

theorem leastFront_eq_none {fronts : List (Option α)} :
    leastFront key fronts = none → ∀ front ∈ fronts, front = none := by
  induction fronts with
  | nil => simp
  | cons front rest ih =>
      cases front with
      | none =>
          intro nothing front member
          rcases List.mem_cons.mp member with rfl | later
          · rfl
          · exact ih (by simpa [leastFront] using nothing) front later
      | some item =>
          intro nothing
          simp only [leastFront] at nothing
          split at nothing
          · cases nothing
          · split at nothing <;> cases nothing

theorem least_leastFront {fronts : List (Option α)} {index : Nat} {item : α}
    (found : leastFront key fronts = some (index, item)) : Least key fronts index item := by
  induction fronts generalizing index item with
  | nil => cases found
  | cons front rest ih =>
      cases front with
      | none =>
          rcases Option.map_eq_some_iff.mp found with ⟨⟨place, inner⟩, later, same⟩
          cases same
          have least := ih later
          refine ⟨least.front, ?_⟩
          intro other member
          rcases List.mem_cons.mp member with impossible | inside
          · cases impossible
          · exact least.least other inside
      | some first =>
          simp only [leastFront] at found
          split at found
          · next nothing =>
              cases found
              refine ⟨rfl, ?_⟩
              intro other member
              rcases List.mem_cons.mp member with same | inside
              · rw [Option.some.inj same]
              · cases leastFront_eq_none nothing _ inside
          · next place inner later =>
              have least := ih later
              split at found
              · next below =>
                  cases found
                  refine ⟨least.front, ?_⟩
                  intro other member
                  rcases List.mem_cons.mp member with same | inside
                  · rw [Option.some.inj same]
                    exact le_of_lt below
                  · exact least.least other inside
              · next above =>
                  cases found
                  refine ⟨rfl, ?_⟩
                  intro other member
                  rcases List.mem_cons.mp member with same | inside
                  · rw [Option.some.inj same]
                  · exact le_trans (le_of_not_gt above) (least.least other inside)

/-- A sorted list and the sorted sources it is to be merged from. -/
structure Interleaves (key : α → κ) (whole : List α) (sources : List (List α)) : Prop where
  sorted : StrictlySorted key whole
  each : ∀ source ∈ sources, StrictlySorted key source
  perm : whole.Perm sources.flatten

theorem Interleaves.mem_iff {whole : List α} {sources : List (List α)}
    (merges : Interleaves key whole sources) (item : α) :
    item ∈ whole ↔ ∃ source ∈ sources, item ∈ source := by
  rw [merges.perm.mem_iff, List.mem_flatten]

theorem Interleaves.nil {whole : List α} {sources : List (List α)}
    (merges : Interleaves key whole sources) (empty : ∀ front ∈ sources.map List.head?, front = none) :
    whole = [] := by
  rw [List.eq_nil_iff_forall_not_mem]
  intro item member
  rcases (merges.mem_iff item).mp member with ⟨source, inside, present⟩
  have nothing := empty _ (List.mem_map_of_mem inside)
  rw [List.head?_eq_none_iff.mp nothing] at present
  cases present

theorem head_le {source : List α} {first item : α} (sorted : StrictlySorted key source)
    (front : source.head? = some first) (member : item ∈ source) : key first ≤ key item := by
  cases source with
  | nil => cases member
  | cons head tail =>
      rw [← Option.some.inj front]
      rcases List.mem_cons.mp member with rfl | later
      · exact le_rfl
      · exact le_of_lt ((List.pairwise_cons.mp sorted).1 item later)

theorem flatten_set_tail {sources : List (List α)} {index : Nat} {item : α} {tail : List α}
    (found : sources[index]? = some (item :: tail)) :
    sources.flatten.Perm (item :: (sources.set index tail).flatten) := by
  induction sources generalizing index with
  | nil => cases found
  | cons source sources ih =>
      cases index with
      | zero =>
          cases found
          exact .refl _
      | succ index =>
          simp only [List.flatten_cons, List.set_cons_succ]
          exact ((ih found).append_left source).trans List.perm_middle

/-- Taking the least front off its source. -/
theorem Interleaves.take {whole : List α} {sources : List (List α)} {index : Nat} {item : α}
    (merges : Interleaves key whole sources) (least : Least key (sources.map List.head?) index item) :
    ∃ tail rest, sources[index]? = some (item :: tail) ∧ whole = item :: rest ∧
      Interleaves key rest (sources.set index tail) := by
  have front := least.front
  rw [List.getElem?_map] at front
  rcases Option.map_eq_some_iff.mp front with ⟨source, found, starts⟩
  rcases List.head?_eq_some_iff.mp starts with ⟨tail, rfl⟩
  have inSource := List.mem_of_getElem? found
  have present : item ∈ whole := (merges.mem_iff item).mpr ⟨_, inSource, List.mem_cons_self⟩
  cases whole with
  | nil => cases present
  | cons first rest =>
      have same : first = item := by
        rcases (merges.mem_iff first).mp List.mem_cons_self with ⟨other, inside, member⟩
        have nonempty : other ≠ [] := List.ne_nil_of_mem member
        rcases List.exists_cons_of_ne_nil nonempty with ⟨head, more, rfl⟩
        have low := least.least head (List.mem_map.mpr ⟨_, inside, rfl⟩)
        have high := head_le (merges.each _ inside) rfl member
        have order := head_le merges.sorted rfl present
        exact merges.sorted.key_injective List.mem_cons_self present
          (le_antisymm order (le_trans low high))
      subst same
      refine ⟨tail, rest, found, rfl, (List.pairwise_cons.mp merges.sorted).2, ?_, ?_⟩
      · intro source member
        rcases List.mem_or_eq_of_mem_set member with old | rfl
        · exact merges.each source old
        · exact (List.pairwise_cons.mp (merges.each _ inSource)).2
      · exact (List.perm_cons first).mp (merges.perm.trans (flatten_set_tail found))

/-- Two different sources never share a front. -/
theorem Interleaves.front_injective {whole : List α} {sources : List (List α)} {i j : Nat}
    {left right : α} (merges : Interleaves key whole sources)
    (leftFront : (sources.map List.head?)[i]? = some (some left))
    (rightFront : (sources.map List.head?)[j]? = some (some right))
    (same : key left = key right) : i = j := by
  have distinct : whole.Pairwise (fun first second => key first ≠ key second) :=
    merges.sorted.imp ne_of_lt
  have across := (List.pairwise_flatten.mp ((merges.perm.pairwise_iff Ne.symm).mp distinct)).2
  have member : ∀ {n : Nat} {item : α}, (sources.map List.head?)[n]? = some (some item) →
      ∃ bound : n < sources.length, item ∈ sources[n] := by
    intro n item front
    rw [List.getElem?_map] at front
    rcases Option.map_eq_some_iff.mp front with ⟨source, found, starts⟩
    rcases List.getElem?_eq_some_iff.mp found with ⟨bound, rfl⟩
    exact ⟨bound, List.mem_of_mem_head? starts⟩
  rcases member leftFront with ⟨leftBound, leftIn⟩
  rcases member rightFront with ⟨rightBound, rightIn⟩
  rcases Nat.lt_trichotomy i j with before | equal | after
  · exact absurd same (List.pairwise_iff_getElem.mp across i j leftBound rightBound before _ leftIn _ rightIn)
  · exact equal
  · exact absurd same.symm
      (List.pairwise_iff_getElem.mp across j i rightBound leftBound after _ rightIn _ leftIn)

/-- Items sorted into bins, one bin after the other. -/
theorem perm_flatMap_filter {ι : Type} [DecidableEq ι] (bin : α → ι) {bins : List ι}
    (nodup : bins.Nodup) {items : List α} (all : ∀ item ∈ items, bin item ∈ bins) :
    items.Perm (bins.flatMap (fun index => items.filter (fun item => bin item = index))) := by
  induction bins generalizing items with
  | nil =>
      rw [List.eq_nil_iff_forall_not_mem.mpr (fun item member => List.not_mem_nil (all item member))]
      exact .nil
  | cons index bins ih =>
      rcases List.nodup_cons.mp nodup with ⟨fresh, nodup⟩
      have rest := @ih nodup (items.filter (fun item => !decide (bin item = index)))
        (by
          intro item member
          rcases List.mem_filter.mp member with ⟨present, other⟩
          have different : bin item ≠ index := by simpa using other
          exact List.mem_of_ne_of_mem different (all item present))
      have same : bins.flatMap (fun place => (items.filter (fun item =>
          !decide (bin item = index))).filter (fun item => bin item = place)) =
          bins.flatMap (fun place => items.filter (fun item => bin item = place)) := by
        apply List.flatMap_congr
        intro place member
        rw [List.filter_filter]
        apply List.filter_congr
        intro item _
        by_cases here : bin item = place
        · have different : bin item ≠ index := fun equal => fresh (equal ▸ here ▸ member)
          simp [here, here ▸ different]
        · simp [here]
      rw [same] at rest
      rw [List.flatMap_cons]
      exact (List.filter_append_perm _ items).symm.trans (rest.append_left _)

end

end Fossil

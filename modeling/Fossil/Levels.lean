import Fossil.Tiered
import Mathlib.Data.Nat.Digits.Defs
import Mathlib.Tactic.IntervalCases

/-! The levels as a base-8 counter of folds.

A fold adds one unit to level zero; a full level is emptied into the next. The
planning loop is this carry: it passes over full levels, ends in the first one
with room and consumes the run that is there. -/

namespace Fossil

section

variable {α β : Type} {weightOf : α → UInt64}

/-- The slots from a level on hold the base-8 digits of a number of folds, as
weights in packages; no empty slot follows the last digit. -/
def Counts (weightOf : α → UInt64) : Nat → List (Option α) → Nat → Prop
  | _, [], folds => folds = 0
  | level, slot :: rest, folds =>
      folds ≠ 0 ∧ ((slot.map weightOf).getD 0).toNat = folds % 8 * (4 * 8 ^ level) ∧
        (slot = none ↔ folds % 8 = 0) ∧ Counts weightOf (level + 1) rest (folds / 8)

theorem unit_succ (level : Nat) : unit (level + 1) = unit level * fanout := by
  simp only [unit, UInt64.pow_succ, UInt64.mul_assoc]

theorem unit_toNat {level : Nat} (bound : level ≤ maxLevels) : (unit level).toNat = 4 * 8 ^ level := by
  have small : level ≤ 8 := bound
  interval_cases level <;> rfl

theorem unit_bound {level : Nat} (bound : level ≤ maxLevels) : 4 * 8 ^ level ≤ 4 * 8 ^ 8 :=
  Nat.mul_le_mul_left 4 (Nat.pow_le_pow_right (by decide) bound)

/-- The digit of a slot, and the unit carried into it. -/
theorem carried_toNat {level digit : Nat} {weight : UInt64} (bound : level < maxLevels)
    (small : digit < 8) (held : weight.toNat = digit * (4 * 8 ^ level)) :
    (unit level + weight).toNat = (digit + 1) * (4 * 8 ^ level) := by
  have limit := unit_bound bound.le
  have scaled : digit * (4 * 8 ^ level) ≤ 7 * (4 * 8 ^ 8) :=
    Nat.mul_le_mul (by omega) limit
  rw [UInt64.toNat_add, unit_toNat bound.le, held, Nat.mod_eq_of_lt (by omega)]
  ring

theorem Counts.map {f : α → β} {weightOf' : β → UInt64}
    (same : ∀ entry, weightOf' (f entry) = weightOf entry) {level folds : Nat}
    {slots : List (Option α)} (counts : Counts weightOf level slots folds) :
    Counts weightOf' level (slots.map (Option.map f)) folds := by
  induction slots generalizing level folds with
  | nil => exact counts
  | cons slot rest ih =>
      rcases counts with ⟨nonzero, digit, empty, deeper⟩
      refine ⟨nonzero, ?_, ?_, ih deeper⟩
      · rw [← digit]
        cases slot with
        | none => rfl
        | some entry => simp [same]
      · rw [← empty]
        cases slot <;> simp

theorem Counts.length_le {level folds fuel : Nat} {slots : List (Option α)}
    (counts : Counts weightOf level slots folds) (bound : folds < 8 ^ fuel) : slots.length ≤ fuel := by
  induction slots generalizing level folds fuel with
  | nil => exact Nat.zero_le _
  | cons slot rest ih =>
      rcases counts with ⟨nonzero, _, _, deeper⟩
      cases fuel with
      | zero => exact absurd (Nat.lt_one_iff.mp bound) nonzero
      | succ fuel =>
          have smaller : folds / 8 < 8 ^ fuel := by
            rw [pow_succ] at bound
            exact Nat.div_lt_of_lt_mul (by omega)
          exact Nat.succ_le_succ (ih deeper smaller)

theorem Counts.lt_pow {level folds : Nat} {slots : List (Option α)}
    (counts : Counts weightOf level slots folds) : folds < 8 ^ slots.length := by
  induction slots generalizing level folds with
  | nil =>
      rw [show folds = 0 from counts]
      exact Nat.one_pos
  | cons slot rest ih =>
      have smaller := ih counts.2.2.2
      rw [List.length_cons, pow_succ]
      omega

/-- The deepest slot is occupied. -/
theorem Counts.last {level folds : Nat} {slots : List (Option α)}
    (counts : Counts weightOf level slots folds) : slots.getLast? ≠ some none := by
  induction slots generalizing level folds with
  | nil => simp
  | cons slot rest ih =>
      rcases counts with ⟨nonzero, _, empty, deeper⟩
      cases rest with
      | nil =>
          have digit : folds / 8 = 0 := deeper
          intro none
          have emptied : slot = Option.none := by simpa using none
          have := empty.mp emptied
          omega
      | cons next rest =>
          rw [List.getLast?_cons_cons]
          exact ih deeper

theorem Counts.trimLevels {level folds : Nat} {slots : List (Option α)}
    (counts : Counts weightOf level slots folds) : trimLevels slots = slots := by
  have occupied := counts.last
  unfold Fossil.trimLevels
  rw [List.getLast?_eq_head?_reverse] at occupied
  cases reversed : slots.reverse with
  | nil => rw [← List.reverse_reverse slots, reversed]; rfl
  | cons slot rest =>
      rw [reversed] at occupied
      cases slot with
      | none => exact absurd rfl occupied
      | some entry =>
          rw [List.dropWhile_cons_of_neg (by simp), ← reversed, List.reverse_reverse]

/-- The weights add up to four packages a fold. -/
theorem Counts.total {level folds : Nat} {slots : List (Option α)}
    (counts : Counts weightOf level slots folds) :
    ((slots.filterMap id).map (fun entry => (weightOf entry).toNat)).sum = folds * (4 * 8 ^ level) := by
  induction slots generalizing level folds with
  | nil =>
      rw [show folds = 0 from counts]
      simp
  | cons slot rest ih =>
      rcases counts with ⟨_, digit, _, deeper⟩
      have tail := ih deeper
      have split : folds * (4 * 8 ^ level) =
          folds % 8 * (4 * 8 ^ level) + folds / 8 * (4 * 8 ^ (level + 1)) := by
        calc folds * (4 * 8 ^ level)
            = (folds % 8 + 8 * (folds / 8)) * (4 * 8 ^ level) := by rw [Nat.mod_add_div]
          _ = folds % 8 * (4 * 8 ^ level) + folds / 8 * (4 * 8 ^ (level + 1)) := by ring
      rw [split, ← tail, ← digit]
      cases slot <;> simp

/-- The weights of the slots from a level on, in units of their levels. -/
def levelDigits (weightOf : α → UInt64) (level : Nat) (slots : List (Option α)) : List Nat :=
  (slots.zipIdx level).map (fun slot => ((slot.1.map weightOf).getD 0).toNat / (unit slot.2).toNat)

theorem Counts.digits {level folds : Nat} {slots : List (Option α)}
    (counts : Counts weightOf level slots folds) (bound : level + slots.length ≤ maxLevels) :
    levelDigits weightOf level slots = Nat.digits 8 folds := by
  induction slots generalizing level folds with
  | nil =>
      rw [show folds = 0 from counts]
      rfl
  | cons slot rest ih =>
      rcases counts with ⟨nonzero, digit, _, deeper⟩
      rw [List.length_cons] at bound
      have tail := ih deeper (by omega)
      have here : level ≤ maxLevels := by omega
      rw [Nat.digits_def' (by decide) (Nat.pos_of_ne_zero nonzero), ← tail]
      unfold levelDigits
      rw [List.zipIdx_cons, List.map_cons, digit, unit_toNat here,
        Nat.mul_div_cancel _ (Nat.mul_pos (by decide) (Nat.pow_pos (by decide)))]

/-- A counter at its bound has every level at seven units. -/
theorem Counts.full {level folds fuel : Nat} {slots : List (Option α)}
    (counts : Counts weightOf level slots folds) (top : folds + 1 = 8 ^ fuel) :
    slots.length = fuel ∧ ∀ index < fuel, ∃ entry, slots[index]? = some (some entry) ∧
      (weightOf entry).toNat = 7 * (4 * 8 ^ (level + index)) := by
  induction fuel generalizing level folds slots with
  | zero =>
      have zero : folds < 8 ^ 0 := by omega
      exact ⟨Nat.le_zero.mp (counts.length_le zero), fun index below => absurd below (Nat.not_lt_zero _)⟩
  | succ fuel ih =>
      rw [pow_succ] at top
      have positive : 0 < 8 ^ fuel := Nat.pow_pos (by decide)
      cases slots with
      | nil =>
          have : folds = 0 := counts
          omega
      | cons slot rest =>
          rcases counts with ⟨_, digit, empty, deeper⟩
          have seven : folds % 8 = 7 := by omega
          rcases ih deeper (by omega) with ⟨length, others⟩
          refine ⟨by rw [List.length_cons, length], ?_⟩
          intro index below
          cases index with
          | zero =>
              cases slot with
              | none => rw [empty.mp rfl] at seven; cases seven
              | some entry => exact ⟨entry, rfl, by simpa [seven] using digit⟩
          | succ index =>
              rcases others index (by omega) with ⟨entry, found, weight⟩
              exact ⟨entry, found, by rw [weight, Nat.add_right_comm, Nat.add_assoc]⟩

/-! The planning loop. -/

def Plan.map (f : α → β) (plan : Plan α) : Plan β :=
  ⟨plan.levels.map (Option.map f), plan.target, plan.weight, plan.deeper.map f⟩

theorem planLoop_map {f : α → β} {weightOf' : β → UInt64}
    (same : ∀ entry, weightOf' (f entry) = weightOf entry) (fuel target : Nat)
    (levels : List (Option α)) (weight : UInt64) (deeper : List α) :
    planLoop weightOf' fuel target (levels.map (Option.map f)) weight (deeper.map f) =
      (planLoop weightOf fuel target levels weight deeper).map (Plan.map f) := by
  induction fuel generalizing target levels weight deeper with
  | zero => rfl
  | succ fuel ih =>
      have padded : (if (levels.map (Option.map f)).length = target
            then levels.map (Option.map f) ++ [none] else levels.map (Option.map f)) =
          (if levels.length = target then levels ++ [none] else levels).map (Option.map f) := by
        rw [List.length_map]
        split <;> simp
      simp only [planLoop, padded]
      generalize (if levels.length = target then levels ++ [none] else levels) = slots
      have taken : (slots.map (Option.map f)).getD target none = (slots.getD target none).map f := by
        rw [List.getD_eq_getElem?_getD, List.getD_eq_getElem?_getD, List.getElem?_map]
        cases slots[target]? <;> rfl
      have weights : ((slots.getD target none).map f).map weightOf' =
          (slots.getD target none).map weightOf := by
        cases slots.getD target none <;> simp [same]
      have consumed : deeper.map f ++ ((slots.getD target none).map f).toList =
          (deeper ++ (slots.getD target none).toList).map f := by
        cases slots.getD target none <;> simp
      have emptied : (slots.map (Option.map f)).set target none =
          (slots.set target none).map (Option.map f) := by
        rw [List.map_set]
        rfl
      rw [taken, weights, consumed, emptied, ih]
      split
      · rfl
      · split <;> rfl

theorem plan_map {f : α → β} {weightOf' : β → UInt64}
    (same : ∀ entry, weightOf' (f entry) = weightOf entry) (levels : List (Option α)) :
    plan weightOf' (levels.map (Option.map f)) = (plan weightOf levels).map (Plan.map f) :=
  planLoop_map same _ _ levels _ []

/-- What a carry leaves: it passes over the full slots `taken`, ends at `slot` and
does not touch `rest`. A slot is added at the end when every one was full. -/
structure Carry (weightOf : α → UInt64) (level folds : Nat) (slots : List (Option α)) (taken : List α)
    (slot : Option α) (rest : List (Option α)) (weight : UInt64) : Prop where
  split : slots = taken.map some ++ slot :: rest ∨ (slots = taken.map some ∧ slot = none ∧ rest = [])
  counts : ∀ merged, weightOf merged = weight →
    Counts weightOf level (List.replicate taken.length none ++ some merged :: rest) (folds + 1)

theorem set_replicate_append {slot value : Option α} {level : Nat} {rest : List (Option α)} :
    (List.replicate level none ++ slot :: rest).set level value =
      List.replicate level none ++ value :: rest := by
  rw [List.set_append_right _ _ (by simp)]
  simp

theorem replicate_append_none {level : Nat} {rest : List (Option α)} :
    List.replicate level none ++ none :: rest = List.replicate (level + 1) none ++ rest := by
  rw [List.replicate_succ', List.append_assoc]
  rfl

/-- One turn of the loop at an existing slot. -/
theorem planLoop_slot {fuel level : Nat} {slot : Option α} {rest : List (Option α)} {weight : UInt64}
    {deeper : List α} :
    planLoop weightOf (fuel + 1) level (List.replicate level none ++ slot :: rest) weight deeper =
      if weight + (slot.map weightOf).getD 0 < unit level * fanout then
        .ok ⟨List.replicate (level + 1) none ++ rest, level, weight + (slot.map weightOf).getD 0,
          deeper ++ slot.toList⟩
      else if weight + (slot.map weightOf).getD 0 ≠ unit level * fanout then
        bail "tiered level capacity exceeded"
      else planLoop weightOf fuel (level + 1) (List.replicate (level + 1) none ++ rest)
        (weight + (slot.map weightOf).getD 0) (deeper ++ slot.toList) := by
  have longer : ¬ (List.replicate level none ++ slot :: rest).length = level := by simp
  have here : (List.replicate level none ++ slot :: rest).getD level none = slot := by
    rw [List.getD_eq_getElem?_getD, List.getElem?_append_right (by simp)]
    simp
  conv => lhs; unfold planLoop
  simp only [if_neg longer, here, set_replicate_append, replicate_append_none]

/-- One turn of the loop past the last slot. -/
theorem planLoop_end {fuel level : Nat} {weight : UInt64} {deeper : List α} :
    planLoop weightOf (fuel + 1) level (List.replicate level none) weight deeper =
      planLoop weightOf (fuel + 1) level (List.replicate level none ++ [none]) weight deeper := by
  conv => lhs; unfold planLoop
  conv => rhs; unfold planLoop
  simp

/-- The loop from a level on, reached with one unit of it: it stops with the level
bound when every slot is full, and otherwise carries. -/
theorem planLoop_spec {fuel level folds : Nat} {slots : List (Option α)} (deeper : List α)
    (room : level + fuel = maxLevels) (counts : Counts weightOf level slots folds)
    (bound : folds < 8 ^ fuel) :
    (folds + 1 = 8 ^ fuel ∧
      planLoop weightOf fuel level (List.replicate level none ++ slots) (unit level) deeper =
        bail "tiered history exceeds the bounded level count") ∨
    (folds + 1 < 8 ^ fuel ∧ ∃ taken slot rest weight, Carry weightOf level folds slots taken slot rest weight ∧
      planLoop weightOf fuel level (List.replicate level none ++ slots) (unit level) deeper =
        .ok ⟨List.replicate (level + taken.length + 1) none ++ rest, level + taken.length, weight,
          deeper ++ (taken ++ slot.toList)⟩) := by
  induction fuel generalizing level folds slots deeper with
  | zero =>
      rw [pow_zero] at bound
      exact Or.inl ⟨by omega, rfl⟩
  | succ fuel ih =>
      have here : level < maxLevels := by omega
      have positive : 0 < 4 * 8 ^ level := Nat.mul_pos (by decide) (Nat.pow_pos (by decide))
      have capacity : (unit level * fanout).toNat = 8 * (4 * 8 ^ level) := by
        rw [← unit_succ, unit_toNat here, pow_succ]
        ring
      have power : 0 < 8 ^ fuel := Nat.pow_pos (by decide)
      cases slots with
      | nil =>
          have none : folds = 0 := counts
          subst none
          have light : unit level + 0 < unit level * fanout := by
            rw [UInt64.lt_iff_toNat_lt, capacity, UInt64.add_zero, unit_toNat here.le]
            omega
          refine Or.inr ⟨by rw [pow_succ]; omega, [], Option.none, [], unit level, ⟨Or.inr (by simp), ?_⟩, ?_⟩
          · intro merged weight
            refine ⟨by decide, ?_, by simp, rfl⟩
            simp only [Option.map_some, Option.getD_some, weight]
            rw [unit_toNat here.le]
            simp
          · rw [List.append_nil, planLoop_end, planLoop_slot]
            simp only [Option.map_none, Option.getD_none, if_pos light]
            simp
      | cons slot rest =>
          rcases counts with ⟨nonzero, digit, empty, beyond⟩
          have carried := carried_toNat here (Nat.mod_lt folds (by decide)) digit
          rw [planLoop_slot]
          by_cases full : folds % 8 = 7
          · -- the slot is full: the loop empties it and goes on with one unit of the next level
            have exact : unit level + (slot.map weightOf).getD 0 = unit (level + 1) := by
              apply UInt64.toNat_inj.mp
              rw [carried, unit_succ, capacity, full]
            have equal : ¬ (unit (level + 1) ≠ unit level * fanout) := not_not.mpr (unit_succ level)
            have notBelow : ¬ (unit (level + 1) < unit level * fanout) := by
              rw [unit_succ]
              exact UInt64.lt_irrefl _
            rcases slot with _ | entry
            · rw [empty.mp rfl] at full
              cases full
            · rw [exact, if_neg notBelow, if_neg equal]
              have tall : folds / 8 < 8 ^ fuel := by
                rw [pow_succ] at bound
                omega
              rcases ih (deeper ++ [entry]) (by omega) beyond tall with
                ⟨top, fails⟩ | ⟨below, taken, slot', rest', weight, carry, planned⟩
              · exact Or.inl ⟨by rw [pow_succ]; omega, fails⟩
              · refine Or.inr ⟨by rw [pow_succ]; omega, entry :: taken, slot', rest', weight, ⟨?_, ?_⟩, ?_⟩
                · rcases carry.split with inside | ⟨ends, noSlot, noRest⟩
                  · exact Or.inl (by rw [inside]; rfl)
                  · exact Or.inr ⟨by rw [ends]; rfl, noSlot, noRest⟩
                · intro merged same
                  have deep := carry.counts merged same
                  have zero : (folds + 1) % 8 = 0 := by omega
                  have next : (folds + 1) / 8 = folds / 8 + 1 := by omega
                  refine ⟨by omega, ?_, by simp [zero], ?_⟩
                  · rw [zero]
                    simp
                  · rw [next]
                    exact deep
                · rw [Option.toList_some, planned, List.length_cons]
                  simp only [List.append_assoc, List.cons_append, List.nil_append,
                    Nat.add_assoc, Nat.add_comm 1]
          · -- there is room: the loop ends here
            have below : unit level + (slot.map weightOf).getD 0 < unit level * fanout := by
              rw [UInt64.lt_iff_toNat_lt, carried, capacity]
              apply Nat.mul_lt_mul_of_pos_right _ positive
              omega
            have more : folds + 1 < 8 ^ (fuel + 1) := by
              rw [pow_succ] at bound ⊢
              omega
            refine Or.inr ⟨more, [], slot, rest, unit level + (slot.map weightOf).getD 0, ⟨Or.inl rfl, ?_⟩, ?_⟩
            · intro merged same
              have up : (folds + 1) % 8 = folds % 8 + 1 := by omega
              have kept : (folds + 1) / 8 = folds / 8 := by omega
              refine ⟨by omega, ?_, by simp [up], ?_⟩
              · simp only [Option.map_some, Option.getD_some, same]
                rw [carried, up]
              · rw [kept]
                exact beyond
            · rw [if_pos below]
              simp

/-- The runs of a manifest around a carry: those deeper than it ends, its inputs, and
the L0 runs it leaves. -/
theorem Carry.manifestRuns {level folds : Nat} {slots : List (Option α)} {taken : List α}
    {slot : Option α} {rest : List (Option α)} {weight : UInt64}
    (carry : Carry weightOf level folds slots taken slot rest weight) (l0 : List α) :
    manifestRuns slots l0 = rest.reverse.filterMap id ++ ((taken ++ slot.toList).reverse ++ l0) := by
  have passed : (taken.map some).reverse.filterMap id = taken.reverse := by
    rw [← List.map_reverse]
    simp
  unfold Fossil.manifestRuns
  rcases carry.split with inside | ⟨ends, noSlot, noRest⟩
  · rw [inside, List.reverse_append, List.filterMap_append, passed, List.reverse_cons,
      List.filterMap_append]
    cases slot <;> simp
  · rw [ends, passed, noSlot, noRest]
    simp

theorem manifestRuns_carried {count : Nat} {merged : α} {rest : List (Option α)} (l0 : List α) :
    manifestRuns (List.replicate count none ++ some merged :: rest) l0 =
      rest.reverse.filterMap id ++ merged :: l0 := by
  have blank : (List.replicate count (none : Option α)).reverse.filterMap id = [] := by
    simp
  unfold Fossil.manifestRuns
  rw [List.reverse_append, List.filterMap_append, blank, List.reverse_cons, List.filterMap_append]
  simp

/-- A plan over counting levels: the runs it consumes lie together in the manifest, and
committing a run of the planned weight in their place counts one fold more. -/
theorem plan_spec {folds : Nat} {levels : List (Option α)} (counts : Counts weightOf 0 levels folds)
    (bound : folds < 8 ^ maxLevels) :
    (folds + 1 = 8 ^ maxLevels ∧
      plan weightOf levels = bail "tiered history exceeds the bounded level count") ∨
    (folds + 1 < 8 ^ maxLevels ∧ ∃ planned older, plan weightOf levels = .ok planned ∧
      (∀ l0, manifestRuns levels l0 = older ++ (planned.inputs l0 ++ l0.drop l0Trigger)) ∧
      ∀ merged, weightOf merged = planned.weight →
        Counts weightOf 0 (planned.commit merged) (folds + 1) ∧
        ∀ l0, manifestRuns (planned.commit merged) l0 = older ++ merged :: l0) := by
  have start : UInt64.ofNat l0Trigger = unit 0 := rfl
  unfold plan
  rw [start]
  rcases planLoop_spec [] (Nat.zero_add maxLevels) counts bound with
    ⟨top, fails⟩ | ⟨below, taken, slot, rest, weight, carry, planned⟩
  · exact Or.inl ⟨top, fails⟩
  · refine Or.inr ⟨below, _, rest.reverse.filterMap id, planned, ?_, ?_⟩
    · intro l0
      rw [carry.manifestRuns, Plan.inputs]
      simp only [List.nil_append, List.append_assoc, List.take_append_drop]
    · intro merged same
      have counted := carry.counts merged same
      have placed : Plan.commit ⟨List.replicate (0 + taken.length + 1) none ++ rest, 0 + taken.length,
          weight, [] ++ (taken ++ slot.toList)⟩ merged =
            List.replicate taken.length none ++ some merged :: rest := by
        unfold Plan.commit
        simp only [Nat.zero_add]
        rw [← replicate_append_none, set_replicate_append, counted.trimLevels]
      rw [placed]
      exact ⟨counted, manifestRuns_carried⟩

end

end Fossil
